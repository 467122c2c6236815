import EntityGraph.Proofs.Entity.Conflicts
import EntityGraph.Proofs.Walk.Collecting
import EntityGraph.Proofs.Walk.InStep

/-!
# Entering selections checks them

Selections are walked through in two ways: `visit` builds entities from them, `validate` only checks
them. The two go in step. What `visit` does besides, it does to the unit alone, without a trace in
the registry, and the only thing that can go wrong there is that two fields do not merge
(`UnitM.Aside`). So the walk that builds ends as the one that checks, on the same registry, unless a
conflict stops it earlier; then the check gets past the place of the conflict (`ChecksTo`). What
both rely on is that a call for a name does not see what was looked up before, and returns a
well-formed fragment. Main statement: `Run.Live.visit_validate`.
-/

namespace EntityGraph

open LookupM (Answers Gives Steady Throws)

section
variable {schema : Schema} {α β γ δ : Type}

/-! ## Conditions that are composite -/

section
variable (schema : Schema)

/-- All conditions of the entity's fields are composite types. -/
def Entity.OnComposites (e : Entity) : Prop :=
  ∀ x ∈ e.fields.values, ∀ c ∈ x.conditions, schema.Composite c

/-- The same of all that the unit has at a location and below it. -/
def Workpiece.OnComposites (base : Location) (w : Workpiece) : Prop :=
  ∀ l e, base.Below l → w.entities.find? l = some e → e.OnComposites schema

end

/-- An entity is put somewhere. -/
theorem Workpiece.OnComposites.put {base l : Location} {w : Workpiece} {e : Entity}
    (h : w.OnComposites schema base) (he : e.OnComposites schema) :
    (w.put l e).OnComposites schema base := by
  intro l' e' hb hfind
  rw [Workpiece.find?_put] at hfind
  split at hfind
  · cases hfind
    exact he
  · exact h l' e' hb hfind

/-- Where all conditions are composite, a field is merged, or conflicts with one that is there. -/
theorem Entity.OnComposites.mergeField {e : Entity} {f : EntityField}
    (he : e.OnComposites schema) (hf : ∀ c ∈ f.conditions, schema.Composite c) :
    (∃ e', Answers (e.mergeField f : LookupM schema BuildError Entity) e' ∧
      e'.OnComposites schema) ∨
    ∃ error : BuildError, error.Conflict ∧
      Throws (e.mergeField f : LookupM schema BuildError Entity) error := by
  rcases LookupM.Decides.forM_first (l := e.fields.values)
    fun x hx => Entity.checkPair_decides (he x hx) hf with
    ⟨-, hnone⟩ | ⟨_, x, _, -, -, -, hfail⟩
  · have hold : ∀ c ∈ e.conditionsAt f.fieldKey, schema.Composite c := by
      intro c hc
      unfold Entity.conditionsAt at hc
      split at hc
      · next x hx => exact he x (Dict.mem_values_iff.2 ⟨_, hx⟩) c hc
      · cases hc
    obtain ⟨cs, hcs⟩ := Conditions.insertAll_answers hf hold
    obtain ⟨m, rfl, hanswers⟩ := Entity.mergeField_answers (e := e) rfl
      (fun x hx => (Entity.checkPair_decides (he x hx) hf).pass (hnone x hx)) hcs
    refine .inl ⟨_, hanswers, fun x hx c hc => ?_⟩
    obtain ⟨key, hkey⟩ := Dict.mem_values_iff.1 hx
    rw [Dict.find?_insert] at hkey
    split at hkey
    · cases hkey
      rcases (Conditions.insertAll_joins hcs.gives).subset c hc with hc | hc
      · exact hold c hc
      · exact hf c hc
    · exact he x (Dict.mem_values_iff.2 ⟨key, hkey⟩) c hc
  · exact .inr ⟨_, ⟨_, _, _, _, rfl⟩, hfail.bind⟩

/-! ## Work on the unit alone -/

/-- Only questions were asked between the two runs. -/
structure Run.Asked (run run' : Run schema) : Prop where
  registry : run'.registry = run.registry
  log : ∀ name, timesBuilt run'.lookups.log name = timesBuilt run.lookups.log name

namespace Run.Asked

variable {run run₁ run' : Run schema}

theorem refl (run : Run schema) : run.Asked run := ⟨rfl, fun _ => rfl⟩

theorem trans (h : run.Asked run₁) (h' : run₁.Asked run') : run.Asked run' :=
  ⟨h'.registry.trans h.registry, fun name => (h'.log name).trans (h.log name)⟩

/-- Questions do not matter. -/
theorem keeps {I : Run schema → Prop} (hq : Run.Quiet I) (h : run.Asked run') (hI : I run) :
    I run' := by
  have h' := hq run run'.lookups hI h.log
  rwa [← h.registry] at h'

end Run.Asked

/-- The work keeps `C` of the unit, does nothing to the run but ask, and fails only with what is
`bad`. What it returns satisfies `post`. -/
def UnitM.Aside (C : Workpiece → Prop) (bad : BuildError → Prop) (work : UnitM schema α)
    (post : α → Prop) : Prop :=
  ∀ w run, C w → match work w run with
    | .ok p run' => run.Asked run' ∧ post p.1 ∧ C p.2
    | .error e run' => run.Asked run' ∧ bad e

namespace UnitM.Aside

variable {C : Workpiece → Prop} {bad : BuildError → Prop} {post : α → Prop}

/-- A value that is returned. -/
theorem pure {a : α} (h : post a) : Aside C bad (Pure.pure a : UnitM schema α) post :=
  fun _ run hw => ⟨.refl run, h, hw⟩

/-- The unit is looked at. -/
theorem get : Aside C bad (get : UnitM schema Workpiece) C :=
  fun _ run hw => ⟨.refl run, hw, hw⟩

/-- The unit is changed. -/
theorem modify {f : Workpiece → Workpiece} (h : ∀ w, C w → C (f w)) :
    Aside C bad (modify f : UnitM schema PUnit) fun _ => True :=
  fun w run hw => ⟨.refl run, trivial, h w hw⟩

/-- A sequence of two pieces of work. -/
theorem bind {work : UnitM schema α} {next : α → UnitM schema β} {post' : β → Prop}
    (h : Aside C bad work post) (hnext : ∀ a, post a → Aside C bad (next a) post') :
    Aside C bad (work >>= next) post' := by
  intro w run hw
  have h := h w run hw
  split at h
  · next p run₁ hwork =>
    obtain ⟨hasked, hpost, hC⟩ := h
    have h' := hnext p.1 hpost p.2 run₁ hC
    rw [UnitM.bind_of_ok hwork]
    split at h'
    · exact ⟨hasked.trans h'.1, h'.2⟩
    · exact ⟨hasked.trans h'.1, h'.2⟩
  · next e run₁ hwork =>
    rw [UnitM.bind_of_error hwork]
    exact h

/-- A loop. -/
theorem forM {f : γ → UnitM schema Unit} :
    ∀ {l : List γ}, (∀ c ∈ l, Aside C bad (f c) fun _ => True) →
      Aside C bad (l.forM f) fun _ => True
  | [], _ => .pure trivial
  | c :: _, h => (h c (.head _)).bind fun _ _ => forM fun c' hc' => h c' (.tail _ hc')

/-- A question that is always answered, or always fails with what is bad. -/
theorem ofLookup {q : LookupM schema BuildError α} (hs : Steady q)
    (h : (∃ a, Answers q a ∧ post a) ∨ ∃ e, bad e ∧ Throws q e) :
    Aside C bad (UnitM.ofRun (RunM.ofLookup q)) post := by
  intro w run hw
  have hquiet := hs.quiet run.lookups
  show match EStateM.bind (RunM.ofLookup q) (fun a => EStateM.pure (a, w)) run with
    | .ok p run' => _ | .error e run' => _
  unfold EStateM.bind RunM.ofLookup
  rcases h with ⟨a, hanswers, ha⟩ | ⟨e, he, hthrows⟩
  · obtain ⟨s, hq⟩ := hanswers run.lookups
    rw [hq] at hquiet ⊢
    exact ⟨⟨rfl, hquiet⟩, ha, hw⟩
  · obtain ⟨s, hq⟩ := hthrows run.lookups
    rw [hq] at hquiet ⊢
    exact ⟨⟨rfl, hquiet⟩, he⟩

/-- A question that is always answered. -/
theorem ask {q : LookupM schema LookupError α} {a : α} (hs : Steady q) (h : Answers q a) :
    Aside C bad (UnitM.ask q) fun b => b = a :=
  ofLookup hs.asked (.inl ⟨a, h.asked, rfl⟩)

/-- A report of something else than a built fragment. -/
theorem report {event : Event} (h : ∀ name, event.builds name = false) :
    Aside C bad (UnitM.ofRun (RunM.report event : RunM schema Unit)) fun _ => True :=
  ofLookup (LookupM.report_steady h) (.inl ⟨(), LookupM.report_answers, trivial⟩)

end UnitM.Aside

/-! ## Merging and copying -/

section
variable {base target location : Location} {bad : BuildError → Prop} {c : Name}

/-- The entity at a location is found or created. -/
theorem entityAt_aside (hb : base.Below location) :
    UnitM.Aside (Workpiece.OnComposites schema base) bad
      (UnitM.entityAt location : UnitM schema Entity) (Entity.OnComposites schema) := by
  refine UnitM.Aside.get.bind fun w hw => ?_
  split
  · next e he => exact .pure (hw location e hb he)
  · have hnew : (Entity.new location).OnComposites schema := fun x hx => nomatch hx
    refine (UnitM.Aside.report fun _ => rfl).bind fun _ _ => ?_
    exact (UnitM.Aside.modify fun w hw => hw.put hnew).bind fun _ _ => .pure hnew

/-- A field is merged, or conflicts. -/
theorem mergeAt_aside (hb : base.Below location) {f : EntityField}
    (hf : ∀ c ∈ f.conditions, schema.Composite c) :
    UnitM.Aside (Workpiece.OnComposites schema base) BuildError.Conflict
      (UnitM.mergeAt location f : UnitM schema Unit) fun _ => True := by
  refine (entityAt_aside hb).bind fun e he => ?_
  refine (UnitM.Aside.ofLookup (e.mergeField_steady f) (he.mergeField hf)).bind fun e' he' => ?_
  exact .modify fun w hw => hw.put he'

/-- An entity of a well-formed fragment is copied. -/
theorem copyWithin_aside (hs : schema.Coherent) {fragment : Fragment}
    (hF : fragment.unit.Formed schema) {depth : Nat} {source : Location} (hb : base.Below target)
    (hc : schema.Composite c) :
    UnitM.Aside (Workpiece.OnComposites schema base) BuildError.Conflict
      (copyWithin fragment depth target source c : UnitM schema Unit) fun _ => True := by
  induction depth generalizing target source c with
  | zero => exact .pure trivial
  | succ depth ih =>
    unfold copyWithin
    split
    · exact .pure trivial
    next entity he =>
    have hformed := hF.formed.entities source entity he
    refine (entityAt_aside hb).bind fun known hknown => ?_
    refine (UnitM.Aside.modify fun w hw => hw.put hknown).bind fun _ _ => .forM fun f hf => ?_
    obtain ⟨key, hkey⟩ := Dict.mem_values_iff.1 hf
    have hfits := hformed.fits key f hkey
    obtain ⟨cs, hcs, -⟩ := narrowConditions_answers hfits.composite hc
    have hnarrow := narrowConditions_gives hs hfits.composite hcs.gives
    refine (UnitM.Aside.ask (narrowConditions_steady ..) hcs).bind ?_
    rintro _ rfl
    split
    · exact .pure trivial
    · cases hchild : f.child with
      | none => exact mergeAt_aside hb hnarrow.composite
      | some l =>
        have hl : schema.Composite l.typeName := by
          obtain ⟨hcomposite, rfl⟩ := Schema.handle?_eq_some_iff.1 (hfits.child ▸ hchild)
          rwa [Location.typeName_append]
        exact (ih (hb.append ..) hl).bind fun _ _ => mergeAt_aside hb hnarrow.composite

end

/-! ## Work on a unit in step with work of a run -/

/-- From one registry the work on the unit goes in step with the check, and keeps `C` of the
unit. -/
def UnitM.Follows (I : Run schema → Prop) (C : Workpiece → Prop)
    (P : Run schema → Run schema → Prop) (work : UnitM schema α) (check : RunM schema β)
    (R : α → β → Prop) : Prop :=
  ∀ w, C w → RunM.Follows I P (work w) check fun p b => R p.1 b ∧ C p.2

namespace UnitM.Follows

variable {I : Run schema → Prop} {C : Workpiece → Prop} {P P' : Run schema → Run schema → Prop}
  {work : UnitM schema α} {check : RunM schema β} {R R' : α → β → Prop}

/-- What is returned and passed may be described by less. -/
theorem mono (h : Follows I C P work check R) (hP : ∀ run run', P run run' → P' run run')
    (hR : ∀ a b, R a b → R' a b) : Follows I C P' work check R' :=
  fun w hw => (h w hw).mono hP fun _ _ => And.imp_left (hR _ _)

/-- Work of the run leaves the unit alone. -/
theorem ofRun {work : RunM schema α} (h : RunM.Follows I (fun _ _ => False) work check R) :
    Follows I C (fun _ _ => False) (UnitM.ofRun work) check R := by
  intro w hw
  have h' : RunM.Follows I (fun _ _ => False) (work >>= fun a => Pure.pure (a, w))
      (check >>= Pure.pure) fun p b => R p.1 b ∧ C p.2 :=
    h.bind_same fun a b hR => .pure ⟨hR, hw⟩
  rwa [bind_pure] at h'

/-- Work of the run that ends in no conflict of its own comes first. -/
theorem ofRun_bind {work : RunM schema α} {next : α → UnitM schema γ} {next' : β → RunM schema δ}
    {S : γ → δ → Prop} {Q : β → Run schema → Run schema → Prop}
    (h : RunM.Follows I (fun _ _ => False) work check R)
    (hnext : ∀ a b, R a b → Follows I C (Q b) (next a) (next' b) S) :
    Follows I C (fun run run' => ∃ b run₁, check run = .ok b run₁ ∧ Q b run₁ run')
      (UnitM.ofRun work >>= next) (check >>= next') S := by
  intro w hw
  have hwork : (UnitM.ofRun work >>= next) w = work >>= fun a => next a w := by
    show (work >>= fun a => Pure.pure (a, w)) >>= (fun p => next p.1 p.2) = _
    rw [bind_assoc]
    simp only [pure_bind]
  rw [hwork]
  refine (h.bind fun a b hR => hnext a b hR w hw).mono ?_ fun _ _ h => h
  rintro run run' (h | h)
  · exact h.elim
  · exact h

/-- A sequence passes what its parts pass. -/
theorem bind {next : α → UnitM schema γ} {next' : β → RunM schema δ} {S : γ → δ → Prop}
    {Q : β → Run schema → Run schema → Prop} (h : Follows I C P work check R)
    (hnext : ∀ a b, R a b → Follows I C (Q b) (next a) (next' b) S) :
    Follows I C (fun run run' => P run run' ∨ ∃ b run₁, check run = .ok b run₁ ∧ Q b run₁ run')
      (work >>= next) (check >>= next') S :=
  fun w hw => (h w hw).bind fun p b hp => hnext p.1 b hp.1 p.2 hp.2

/-- Work on the unit alone goes in step with doing nothing. A conflict is where the check is. -/
theorem of_aside (hq : Run.Quiet I) {post : α → Prop}
    (h : UnitM.Aside C BuildError.Conflict work post) :
    Follows I C (fun run run' => run' = run) work (Pure.pure () : RunM schema Unit)
      fun a _ => post a := by
  intro w hw run₁ run₂ hI hreg
  have h := h w run₁ hw
  generalize work w run₁ = result at h ⊢
  cases result with
  | ok p run =>
    obtain ⟨hasked, hpost, hC⟩ := h
    exact .ok (hasked.keeps hq hI) (hasked.registry.trans hreg) ⟨hpost, hC⟩
  | error e run => exact .conflict h.2 rfl (h.1.registry.trans hreg)

/-- Work on the unit alone that never fails comes first. -/
theorem aside_bind (hq : Run.Quiet I) {post : α → Prop} {next : α → UnitM schema γ}
    {S : γ → β → Prop} (h : UnitM.Aside C (fun _ => False) work post)
    (hnext : ∀ a, post a → Follows I C P (next a) check S) :
    Follows I C P (work >>= next) check S := by
  intro w hw run₁ run₂ hI hreg
  have h := h w run₁ hw
  split at h
  · next p run hwork =>
    obtain ⟨hasked, hpost, hC⟩ := h
    rw [UnitM.bind_of_ok hwork]
    exact hnext p.1 hpost p.2 hC run run₂ (hasked.keeps hq hI) (hasked.registry.trans hreg)
  · exact h.2.elim

/-- Work on the unit alone comes last. A conflict is where the check ends. -/
theorem bind_aside (hq : Run.Quiet I) {check : RunM schema Unit} {R : α → Unit → Prop}
    {post : γ → Prop} {next : α → UnitM schema γ} (h : Follows I C P work check R)
    (hnext : ∀ a, UnitM.Aside C BuildError.Conflict (next a) post) :
    Follows I C (fun run run' => P run run' ∨ check run = .ok () run') (work >>= next) check
      fun a _ => post a := by
  have h' := h.bind fun a _ _ => of_aside hq (hnext a)
  rw [bind_pure_unit] at h'
  refine h'.mono ?_ fun _ _ h => h
  rintro run run' (hP | ⟨_, run₁, hcheck, rfl⟩)
  · exact .inl hP
  · exact .inr hcheck

/-- A loop passes what its steps pass. -/
theorem forM {f : γ → UnitM schema Unit} {f' : γ → RunM schema Unit}
    {Q : γ → Run schema → Run schema → Prop} {l : List γ}
    (h : ∀ c ∈ l, Follows I C (Q c) (f c) (f' c) fun _ _ => True) :
    Follows I C (fun run run' => ∃ before c after run₁, l = before ++ c :: after ∧
        before.forM f' run = .ok () run₁ ∧ Q c run₁ run')
      (l.forM f) (l.forM f') fun _ _ => True := by
  induction l with
  | nil => exact fun w hw => .pure ⟨trivial, hw⟩
  | cons c l ih =>
    refine ((h c (.head _)).bind fun _ _ _ => ih fun c' hc' => h c' (.tail _ hc')).mono ?_
      fun _ _ h => h
    rintro run run' (hQ | ⟨_, run₁, hc, before, c', after, run₂, rfl, hbefore, hQ⟩)
    · exact ⟨[], c, l, run, rfl, rfl, hQ⟩
    · exact ⟨c :: before, c', after, run₂, rfl,
        (EntityGraph.bind_of_ok hc).trans hbefore, hQ⟩

end UnitM.Follows

/-! ## How far a check gets -/

section
variable (resolve : Name → RunM schema Fragment)

/-- The check of a normal selection gets from the first run to the second: it gets past the
selection, or to there within the selections on the field. -/
inductive ChecksSelectionTo (nested : Name → List Selection → RunM schema Unit)
    (within : Name → List Selection → Run schema → Run schema → Prop) :
    NormalSelection → Run schema → Run schema → Prop
  | past {s : NormalSelection} {run run' : Run schema} :
      validateSelection resolve nested s run = .ok () run' →
      ChecksSelectionTo nested within s run run'
  | inside {aliasName : Option Name} {name condition : Name} {place : SourceLocation}
      {selections : List Selection} {declared : DeclaredType} {type : NamedType}
      {run run₁ run₂ run' : Run schema} :
      RunM.fieldType name place condition run = .ok declared run₁ →
      RunM.ask (LookupM.type declared.innermostName) run₁ = .ok type run₂ →
      type.isComposite = true → within type.name selections run₂ run' →
      ChecksSelectionTo nested within (.field aliasName name place selections condition) run run'

/-- The check of selections of a bounded height gets from the first run to the second, without a
failure. -/
def ChecksWithinTo : (height : Nat) → Name → List Selection → Run schema → Run schema → Prop
  | 0, _, _, _, _ => False
  | height + 1, condition, selections, run, run' =>
    ∃ before s after run₁ run₂,
      RunM.ask (Selection.normalizeAll condition selections) run =
        .ok (before ++ s :: after) run₁ ∧
      before.forM (validateSelection resolve (validateWithin resolve height)) run₁ = .ok () run₂ ∧
      ChecksSelectionTo resolve (validateWithin resolve height) (ChecksWithinTo height) s run₂ run'

/-- The check of selections gets from the first run to the second. -/
def ChecksTo (condition : Name) (selections : List Selection) : Run schema → Run schema → Prop :=
  ChecksWithinTo resolve (Selection.heightAll selections) condition selections

end

/-! ## Walks -/

section
variable {I : Run schema → Prop} {resolve : Name → RunM schema Fragment} {base location : Location}
  (hs : schema.Coherent) (hq : Run.Quiet I)
  (hr : ∀ name, RunM.Follows I (fun _ _ => False) (resolve name) (resolve name)
    fun f g => f = g ∧ f.unit.Formed schema)
include hs hq

/-- A field is entered as it is checked, where the selections on it are. -/
theorem visitField_follows {nested : Location → Name → List Selection → UnitM schema Unit}
    {nested' : Name → List Selection → RunM schema Unit}
    {within : Name → List Selection → Run schema → Run schema → Prop} {aliasName : Option Name}
    {name condition : Name} {place : SourceLocation} {selections : List Selection}
    (hnested : ∀ child type, base.Below child → schema.Composite type →
      UnitM.Follows I (Workpiece.OnComposites schema base) (within type selections)
        (nested child type selections) (nested' type selections) fun _ _ => True)
    (hb : base.Below location) (hc : schema.Composite condition) :
    UnitM.Follows I (Workpiece.OnComposites schema base)
      (ChecksSelectionTo resolve nested' within
        (.field aliasName name place selections condition))
      (visitField nested location aliasName name place selections condition)
      (validateSelection resolve nested' (.field aliasName name place selections condition))
      fun _ _ => True := by
  have hmerge : ∀ declared child, UnitM.Aside (Workpiece.OnComposites schema base)
      BuildError.Conflict (UnitM.mergeAt location
        (.single (responseKey aliasName name) name declared child condition) :
          UnitM schema Unit) fun _ => True :=
    fun declared child => mergeAt_aside hb fun c hm => List.mem_singleton.1 hm ▸ hc
  -- what is checked on the field once its type is known
  let rest (type : NamedType) : RunM schema Unit :=
    if type.isComposite then nested' type.name selections else RunM.checkLeaf type selections
  refine (UnitM.Follows.ofRun_bind (fieldType_follows hq)
    (Q := fun declared run run' => ∃ type run₁,
      RunM.ask (LookupM.type declared.innermostName) run = .ok type run₁ ∧
      (type.isComposite = true ∧ within type.name selections run₁ run' ∨
        rest type run₁ = .ok () run')) ?_).mono ?_ fun _ _ h => h
  · rintro declared _ rfl
    refine .ofRun_bind (.ask hq (LookupM.type_steady _)) ?_
    rintro type _ ⟨rfl, ht⟩
    have ht := LookupM.type_gives ht
    by_cases hcomposite : type.isComposite = true
    · have hname : schema.Composite type.name := by
        rw [hs.named _ _ ht]
        exact ⟨type, ht, hcomposite⟩
      simp only [rest, hcomposite, if_true, true_and]
      exact (hnested _ _ (hb.append ..) hname).bind_aside hq fun _ => hmerge _ _
    · simp only [rest, hcomposite, Bool.false_eq_true, if_false, false_and]
      exact (UnitM.Follows.ofRun checkLeaf_follows).bind_aside hq fun _ => hmerge _ _
  · rintro run run' ⟨declared, run₁, hd, type, run₂, ht, ⟨hcomposite, hwithin⟩ | hrest⟩
    · exact .inside hd ht hcomposite hwithin
    · exact .past ((bind_of_ok hd).trans ((bind_of_ok ht).trans hrest))

/-- A spread is entered: it is checked by resolving it, and the fragment is copied aside. -/
theorem visitSpread_follows {name c : Name}
    (hr : RunM.Follows I (fun _ _ => False) (resolve name) (resolve name)
      fun f g => f = g ∧ f.unit.Formed schema)
    (hb : base.Below location) (hc : schema.Composite c) :
    UnitM.Follows I (Workpiece.OnComposites schema base)
      (fun run run' => ∃ f, resolve name run = .ok f run')
      (visitSpread resolve location name c) (do let _ ← resolve name) fun _ _ => True := by
  refine (UnitM.Follows.ofRun_bind hr (Q := fun _ run run' => run' = run) ?_).mono ?_
    fun _ _ h => h
  · rintro fragment _ ⟨rfl, hF⟩
    refine .of_aside hq (.bind (.modify fun w hw => hw) fun _ _ => ?_)
    have hcondition : schema.Composite fragment.definition.condition := by
      obtain ⟨e, he⟩ := Dict.mem_keys_iff.1 hF.mem
      have h := (hF.formed.entities _ e he).composite
      rwa [hF.root] at h
    obtain ⟨cs, hcs⟩ := LookupM.intersect_answers hc hcondition
    refine (UnitM.Aside.ask (LookupM.intersect_steady ..) hcs).bind ?_
    rintro _ rfl
    refine .forM fun c' hc' => copyWithin_aside hs hF hb ?_
    exact (LookupM.intersect_gives hs hc hcs.gives).composite c' hc'
  · rintro run run' ⟨f, run₁, hf, rfl⟩
    exact ⟨f, hf⟩

variable (hr : ∀ name, RunM.Follows I (fun _ _ => False) (resolve name) (resolve name)
  fun f g => f = g ∧ f.unit.Formed schema)
include hr

/-- Selections are entered as they are checked. -/
theorem visitWithin_follows {height : Nat} {c : Name} {selections : List Selection}
    (hheight : Selection.heightAll selections ≤ height) (hb : base.Below location)
    (hc : schema.Composite c) :
    UnitM.Follows I (Workpiece.OnComposites schema base)
      (ChecksWithinTo resolve height c selections)
      (visitWithin resolve height location c selections)
      (validateWithin resolve height c selections) fun _ _ => True := by
  induction height generalizing location c selections with
  | zero =>
    refine .aside_bind hq (entityAt_aside hb) fun _ _ w hw => ?_
    exact RunM.Follows.pure ⟨trivial, hw⟩
  | succ height ih =>
    refine .aside_bind hq (entityAt_aside hb) fun _ _ => ?_
    refine (UnitM.Follows.ofRun_bind (.ask hq (Selection.normalizeAll_steady c selections))
      (Q := fun normal run run' => ∃ before s after run₁, normal = before ++ s :: after ∧
        before.forM (validateSelection resolve (validateWithin resolve height)) run = .ok () run₁ ∧
        ChecksSelectionTo resolve (validateWithin resolve height) (ChecksWithinTo resolve height) s
          run₁ run') ?_).mono ?_ fun _ _ h => h
    · rintro normal _ ⟨rfl, hn⟩
      have hnormal : Normal schema ⟨none, [], []⟩ c selections normal :=
        Selection.normalizeAll_normal hs selections hc hn
      refine .forM fun s hmem => ?_
      have hlower : Selection.heightAll s.selections ≤ height := by
        have := (Selection.normalizeAll_parts selections hn s hmem).lower
        omega
      have hinside := hnormal.inside s hmem
      cases s with
      | field aliasName name place inner own =>
        exact visitField_follows hs hq (fun child type hb hc => ih hlower hb hc) hb hinside.1
      | spread name place own =>
        refine (visitSpread_follows hs hq (hr name) hb hinside.1).mono ?_ fun _ _ h => h
        rintro run run' ⟨f, hf⟩
        exact .past (bind_of_ok hf)
      | unreachable place inner own =>
        -- one walk checks these up to their own height, the other up to what is left of the bound
        have hsame : ∀ name, RunM.Follows I (fun _ _ => False) (resolve name) (resolve name) Eq :=
          fun name => (hr name).mono (fun _ _ h => h) fun _ _ h => h.1
        have hvalidate := validateWithin_follows hq hsame (c := own) (Nat.le_refl _) hlower
        exact (UnitM.Follows.ofRun hvalidate).mono (fun _ _ h => h.elim) fun _ _ _ => trivial
    · rintro run run' ⟨_, run₁, hn, before, s, after, run₂, rfl, hbefore, hto⟩
      exact ⟨before, s, after, run₁, run₂, hn, hbefore, hto⟩

end

/-- Calls for a name are in step with themselves, with well-formed fragments, as long as the
registry mirrors its definitions. -/
theorem Run.Mirrors.resolve_follows (hs : schema.Coherent)
    {definitions : Dict Name FragmentDefinition} {stack : OrderedSet Name}
    (hstack : ∀ n ∈ stack, n ∈ definitions.keys) {resolve : Name → RunM schema Fragment}
    (hresolve : resolve = RunM.resolve ∨ ∃ depth, resolve = RunM.resolveWithin depth)
    (name : Name) :
    RunM.Follows (Run.Mirrors definitions stack) (fun _ _ => False) (resolve name) (resolve name)
      fun f g => f = g ∧ f.unit.Formed schema := by
  have hkeep : ∀ (depth : Nat) (run : Run schema) f run', run.Mirrors definitions stack →
      RunM.resolveWithin depth name run = .ok f run' →
      run'.Mirrors definitions stack ∧ f.unit.Formed schema := by
    intro depth run f run' hI hf
    obtain ⟨hI', hshallow⟩ := hI.resolved hs hstack hf
    exact ⟨hI', hshallow.formed⟩
  rcases hresolve with rfl | ⟨depth, rfl⟩
  · exact .of_blind resolve_blind fun run => hkeep run.registry.definitions.size run
  · exact .of_blind resolveWithin_blind (hkeep depth)

/-- Nothing is there at a location without entities there or below. -/
theorem Workpiece.OnComposites.of_fresh {location : Location} {w : Workpiece}
    (h : ∀ l, location.Below l → w.entities.find? l = none) :
    w.OnComposites schema location := by
  intro l e hb he
  rw [h l hb] at he
  cases he

/-- On any registry with a history, also while fragments are under construction, selections on a
composite type are entered at a location as they are checked, whatever was looked up before. The
unit may be any that has no fields below the location but such on composite types, so it may have
nothing there at all. If the walk that enters them succeeds then so does the check, and leaves the
same registry. If the check fails, then so does the walk: with the same error, on the same registry,
or with a conflict of fields, on a registry that the check gets past before. And so any failure of
the walk that is not a conflict is that of the check. The check never changes a unit. -/
theorem Run.Live.visit_validate {run run' : Run schema} (hs : schema.Built) (hlive : run.Live)
    (hreg : run'.registry = run.registry) {resolve : Name → RunM schema Fragment}
    (hresolve : resolve = RunM.resolve ∨ ∃ depth, resolve = RunM.resolveWithin depth) {type : Name}
    (htype : schema.Composite type) {location : Location} {w : Workpiece}
    (hw : w.OnComposites schema location) (selections : List Selection) :
    (∀ p run₁, visit resolve location type selections w run = .ok p run₁ →
      ∃ run₂, validate resolve type selections run' = .ok () run₂ ∧
        run₁.registry = run₂.registry) ∧
    (∀ e run₂, validate resolve type selections run' = .error e run₂ →
      ∃ e' run₁, visit resolve location type selections w run = .error e' run₁ ∧
        (e' = e ∧ run₁.registry = run₂.registry ∨
          e'.Conflict ∧ ∃ run₃, ChecksTo resolve type selections run' run₃ ∧
            run₁.registry = run₃.registry)) ∧
    (∀ e run₁, visit resolve location type selections w run = .error e run₁ → ¬ e.Conflict →
      ∃ run₂, validate resolve type selections run' = .error e run₂ ∧
        run₁.registry = run₂.registry) ∧
    ∀ w' : Workpiece, UnitM.ofRun (validate resolve type selections) w' run' =
      match validate resolve type selections run' with
      | .ok _ run₂ => .ok ((), w') run₂
      | .error e run₂ => .error e run₂ := by
  obtain ⟨hmirrors, hstack⟩ := hlive.mirrors_defined
  have hfollows : UnitM.Follows _ (Workpiece.OnComposites schema location)
      (ChecksTo resolve type selections) (visit resolve location type selections)
      (validate resolve type selections) fun _ _ => True :=
    visitWithin_follows hs.coherent Run.Mirrors.quiet
      (Run.Mirrors.resolve_follows hs.coherent hstack hresolve) (Nat.le_refl _) (.refl _) htype
  have hstep := hfollows w hw run run' hmirrors hreg.symm
  refine ⟨fun p run₁ hvisit => ?_, fun e run₂ hvalidate => ?_, fun e run₁ hvisit hno => ?_,
    fun w' => ?_⟩
  · rw [hvisit] at hstep
    generalize validate resolve type selections run' = result at hstep ⊢
    cases hstep with
    | ok _ hregistry => exact ⟨_, rfl, hregistry⟩
  · rw [hvalidate] at hstep
    generalize visit resolve location type selections w run = result at hstep ⊢
    cases hstep with
    | error hregistry => exact ⟨_, _, rfl, .inl ⟨rfl, hregistry⟩⟩
    | conflict he hto hregistry => exact ⟨_, _, rfl, .inr ⟨he, _, hto, hregistry⟩⟩
  · rw [hvisit] at hstep
    generalize validate resolve type selections run' = result at hstep ⊢
    cases hstep with
    | error hregistry => exact ⟨_, rfl, hregistry⟩
    | conflict he => exact absurd he hno
  · show EStateM.bind (validate resolve type selections) _ run' = _
    rw [EStateM.bind]
    cases validate resolve type selections run' <;> rfl

end

namespace Sample

/-- A spread, two fields of one response key and different types, and a field that there is not. -/
def clashing : List Selection :=
  [.spread "Parts" place, .field (some "key") "id" place [],
    .field (some "key") "next" place leaf, .field none "missing" place []]

/-- Whether work failed because a field is missing. -/
def lacksField {α σ : Type} : EStateM.Result BuildError σ α → Bool
  | .error (.unknownField _ _ _) _ => true
  | _ => false

/-- The check fails because of the missing field. The walk fails because of the two fields, when the
check has already got past them. -/
theorem clash_before_missing : schema.Built ∧ run.Live ∧ schema.Composite "Node" ∧
    Workpiece.empty.OnComposites schema nodeLocation ∧
    lacksField (validate RunM.resolve "Node" clashing run) = true ∧
    ∃ e run₁ run₂, visit RunM.resolve nodeLocation "Node" clashing .empty run = .error e run₁ ∧
      e.Conflict ∧ ChecksTo RunM.resolve "Node" clashing run run₂ ∧
      run₁.registry = run₂.registry := by
  have hnode : schema.Composite "Node" := by decide +kernel
  have hempty : Workpiece.empty.OnComposites schema nodeLocation := .of_fresh fun _ _ => rfl
  have hcheck : lacksField (validate RunM.resolve "Node" clashing run) = true := by
    decide +kernel
  have hwalk : lacksField (visit RunM.resolve nodeLocation "Node" clashing .empty run) = false := by
    decide +kernel
  refine ⟨built, run_live, hnode, hempty, hcheck, ?_⟩
  obtain ⟨-, herror, -⟩ := run_live.visit_validate built rfl (.inl rfl) hnode hempty clashing
  cases hv : validate RunM.resolve "Node" clashing run with
  | ok _ _ =>
    rw [hv] at hcheck
    cases hcheck
  | error e run₂ =>
    rw [hv] at hcheck
    obtain ⟨e', run₁, hvisit, ⟨rfl, -⟩ | ⟨he, run₃, hto, hregistry⟩⟩ := herror e run₂ hv
    · -- the two do not fail for the same reason
      rw [hvisit] at hwalk
      cases e' <;> cases hcheck
      cases hwalk
    · exact ⟨e', run₁, run₃, hvisit, he, hto, hregistry⟩

end Sample

end EntityGraph
