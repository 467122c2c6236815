import EntityGraph.Proofs.Grammar.TypeReferences

/-!
# What parsers lead to

A parser takes tokens off the front and never puts any back, so what is known of the tokens that it
finds leads to something that is known of those that it leaves. `Leads` says this together with what
the parser gives; it is put together along `>>=` and is proved for the loops once
(`itemsWithin_leads`). A parser that leads to what it starts from `Keeps` it: names and values keep the
depth of sound tokens, and every parser keeps tokens that are sound at some depth (`Underway`).
-/

namespace EntityGraph.Grammar

namespace Parser

variable {α β : Type} {I J K : List Token → Prop} {P : α → Prop} {Q : β → Prop}

/-- From tokens with `I` the parser leads to tokens with `J`, and what it gives is as `P` says. -/
def Leads (I J : List Token → Prop) (parser : Parser α) (P : α → Prop) : Prop :=
  ∀ ts a rest, I ts → parser ts = some (a, rest) → J rest ∧ P a

/-- The parser leaves tokens with `I` if it finds such tokens. -/
abbrev Keeps (I : List Token → Prop) (parser : Parser α) (P : α → Prop) : Prop := Leads I I parser P

/-- What one parser after another gives is given by the second, on what the first one leaves. -/
theorem bind_eq_some {parser : Parser α} {next : α → Parser β} {ts rest : List Token} {b : β}
    (h : (parser >>= next) ts = some (b, rest)) :
    ∃ a ts', parser ts = some (a, ts') ∧ next a ts' = some (b, rest) := by
  obtain ⟨⟨a, ts'⟩, ha, hb⟩ := Option.bind_eq_some_iff.1 h
  exact ⟨a, ts', ha, hb⟩

/-- The second of two parsers goes on with what the first one gives and leaves. -/
theorem bind_eq {parser : Parser α} {next : α → Parser β} {ts ts' : List Token} {a : α}
    (h : parser ts = some (a, ts')) : (parser >>= next) ts = next a ts' := by
  change (parser ts).bind _ = _
  rw [h]
  rfl

namespace Leads

/-- A parser that reads nothing keeps the tokens. -/
theorem pure {a : α} (h : P a) : Keeps I (pure a : Parser α) P := by
  intro ts b rest hts hread
  cases hread
  exact ⟨hts, h⟩

/-- A parser that fails may lead anywhere. -/
theorem failure : Leads I J (failure : Parser α) P := by
  intro ts a rest _ hread
  cases hread

/-- One parser after another leads on from where the first one leads to. -/
theorem bind {parser : Parser α} {next : α → Parser β} (hparser : Leads I J parser P)
    (hnext : ∀ a, P a → Leads J K (next a) Q) : Leads I K (parser >>= next) Q := by
  intro ts b rest hts hread
  obtain ⟨a, ts', ha, hb⟩ := bind_eq_some hread
  obtain ⟨hts', hP⟩ := hparser ts a ts' hts ha
  exact hnext a hP ts' b rest hts' hb

/-- Less may be said of what a parser gives. -/
theorem imp {P' : α → Prop} {parser : Parser α} (hparser : Leads I J parser P)
    (h : ∀ a, P a → P' a) : Leads I J parser P' := fun ts a rest hts hread =>
  (hparser ts a rest hts hread).imp_right (h a)

/-- Less may be said of what a parser leads to. -/
theorem weaken {parser : Parser α} (hparser : Leads I J parser P) (h : ∀ ts, J ts → K ts) :
    Leads I K parser P := fun ts a rest hts hread =>
  (hparser ts a rest hts hread).imp_left (h rest)

/-- Looking at the next token keeps it. -/
theorem peek : Keeps I peek fun _ => True := by
  intro ts l rest hts hread
  cases hread
  exact ⟨hts, trivial⟩

/-- Looking at all tokens keeps them. -/
theorem get : Keeps I (get : Parser (List Token)) fun _ => True := by
  intro ts ts' rest hts hread
  cases hread
  exact ⟨hts, trivial⟩

/-- Asking for the place of the next token keeps it. -/
theorem position : Keeps I position fun _ => True := by
  intro ts pos rest hts hread
  cases ts with
  | nil => cases hread
  | cons t ts =>
    cases hread
    exact ⟨hts, trivial⟩

end Leads

/-- Looking for a punctuator takes nothing. -/
theorem atPunct_eq (p : Punctuator) (ts : List Token) :
    atPunct p ts = some (decide (ts.head?.map (·.lexeme) = some (.punct p)), ts) := rfl

/-- A punctuator is skipped if it is next. -/
theorem skipPunct_self (p : Punctuator) (pos : Pos) (ts : List Token) :
    skipPunct p (⟨pos, .punct p⟩ :: ts) = some (true, ts) := by
  rw [skipPunct, bind_eq (atPunct_eq p _), if_pos (by simp)]
  rfl

/-- Nothing is skipped if another token is next. -/
theorem skipPunct_other {p : Punctuator} {ts : List Token}
    (h : ts.head?.map (·.lexeme) ≠ some (.punct p)) : skipPunct p ts = some (false, ts) := by
  rw [skipPunct, bind_eq (atPunct_eq p ts), if_neg (by simpa using h)]
  rfl

/-- A punctuator that was skipped was next, and otherwise nothing was taken. -/
theorem skipPunct_cases {p : Punctuator} {ts rest : List Token} {skipped : Bool}
    (h : skipPunct p ts = some (skipped, rest)) :
    (skipped = true ∧ ∃ pos, ts = ⟨pos, .punct p⟩ :: rest) ∨ (skipped = false ∧ rest = ts) := by
  by_cases hhead : ts.head?.map (·.lexeme) = some (.punct p)
  · cases ts with
    | nil => cases hhead
    | cons t ts =>
      obtain ⟨pos, l⟩ := t
      cases hhead
      rw [skipPunct_self] at h
      cases h
      exact .inl ⟨rfl, pos, rfl⟩
  · rw [skipPunct_other hhead] at h
    cases h
    exact .inr ⟨rfl, rfl⟩

/-- Items that keep the tokens lead to tokens that follow a closing punctuator. -/
theorem itemsWithin_leads {close : Punctuator} {item : Parser α} (hitem : Keeps I item P)
    {bound : Nat} : Leads I (fun rest => ∃ pos, I (⟨pos, .punct close⟩ :: rest))
      (itemsWithin close item bound) fun as => ∀ a ∈ as, P a := by
  induction bound with
  | zero => exact .failure
  | succ bound ih =>
    intro ts as rest hts hread
    obtain ⟨skipped, ts', hskip, hitems⟩ := bind_eq_some hread
    rcases skipPunct_cases hskip with ⟨rfl, pos, rfl⟩ | ⟨rfl, rfl⟩
    · cases hitems
      exact ⟨⟨pos, hts⟩, by simp⟩
    · have hmore : Leads I (fun rest => ∃ pos, I (⟨pos, .punct close⟩ :: rest))
          (do let a ← item; return a :: (← itemsWithin close item bound)) fun as => ∀ a ∈ as, P a :=
        hitem.bind fun a ha => ih.bind fun as has => .pure (List.forall_mem_cons.2 ⟨ha, has⟩)
      exact hmore _ as rest hts hitems

/-- Items that keep the tokens lead to tokens that follow a closing punctuator, however many they
are. -/
theorem items_leads {close : Punctuator} {item : Parser α} (hitem : Keeps I item P) :
    Leads I (fun rest => ∃ pos, I (⟨pos, .punct close⟩ :: rest)) (items close item)
      fun as => ∀ a ∈ as, P a := Leads.get.bind fun _ _ => itemsWithin_leads hitem

/-! ## Depths -/

section Sound

variable {depth depth' : Nat}

/-- A token that is taken leads to the depth of which it tells. -/
theorem next_leads {next' : Lexeme → Parser β}
    (h : ∀ l depth', l.Readable → l.nest depth = some depth' → Leads (Sound depth') J (next' l) Q) :
    Leads (Sound depth) J (next >>= next') Q := by
  intro ts b rest hts hread
  obtain ⟨l, ts', hnext, hb⟩ := bind_eq_some hread
  cases ts with
  | nil => cases hnext
  | cons t ts =>
    cases hnext
    obtain ⟨depth', hdepth, htail⟩ := hts.tail
    exact h t.lexeme depth' (hts.readable t (.head _)) hdepth _ b rest htail hb

/-- A name does not change the depth. -/
theorem name_sound : Keeps (Sound depth) name fun n => isName n = true := by
  refine next_leads fun l depth' hl hdepth => ?_
  cases l with
  | name n =>
    cases hdepth
    exact .pure hl
  | _ => exact .failure

/-- A punctuator that is no bracket does not change the depth. -/
theorem punct_sound {p : Punctuator} (hp : p.nest depth = some depth) :
    Keeps (Sound depth) (punct p) fun _ => True := by
  refine next_leads fun l depth' _ hdepth => ?_
  split
  · next hl =>
    subst hl
    cases hp.symm.trans hdepth
    exact .pure trivial
  · exact .failure

/-- Items that do not change the depth lead to the depth after the closing punctuator. -/
theorem items_sound {close : Punctuator} {item : Parser α}
    (hclose : close.nest depth = some depth') (hitem : Keeps (Sound depth) item P) :
    Leads (Sound depth) (Sound depth') (items close item) fun as => ∀ a ∈ as, P a := by
  refine (items_leads hitem).weaken ?_
  rintro rest ⟨pos, hopen⟩
  obtain ⟨closed, hnest, hrest⟩ := hopen.tail
  cases hclose.symm.trans hnest
  exact hrest

end Sound

/-! ## What is left of a text -/

/-- The tokens are what is left of a text: they are sound at some depth. -/
def Underway (ts : List Token) : Prop := ∃ depth, Sound depth ts

/-- What follows a token of what is left is left. -/
theorem underway_tail {t : Token} {ts : List Token} (h : Underway (t :: ts)) : Underway ts := by
  obtain ⟨depth, hsound⟩ := h
  obtain ⟨depth', -, htail⟩ := hsound.tail
  exact ⟨depth', htail⟩

/-- Taking a token. -/
theorem next_keeps : Keeps Underway next fun _ => True := by
  intro ts l rest hts hread
  cases ts with
  | nil => cases hread
  | cons t ts =>
    cases hread
    exact ⟨underway_tail hts, trivial⟩

/-- A parser that keeps the depth keeps the tokens underway. -/
theorem keeps_of_sound {parser : Parser α} (h : ∀ depth, Keeps (Sound depth) parser P) :
    Keeps Underway parser P := by
  rintro ts a rest ⟨depth, hts⟩ hread
  obtain ⟨hrest, hP⟩ := h depth ts a rest hts hread
  exact ⟨⟨depth, hrest⟩, hP⟩

/-- Taking a name. -/
theorem name_keeps : Keeps Underway name fun _ => True :=
  keeps_of_sound fun _ => name_sound.imp fun _ _ => trivial

/-- Taking a punctuator. -/
theorem punct_keeps (p : Punctuator) : Keeps Underway (punct p) fun _ => True := by
  refine next_keeps.bind fun l _ => ?_
  split
  · exact .pure trivial
  · exact .failure

/-- Taking a keyword. -/
theorem keyword_keeps (word : Name) : Keeps Underway (keyword word) fun _ => True := by
  refine next_keeps.bind fun l _ => ?_
  split
  · exact .pure trivial
  · exact .failure

/-- Looking for a keyword. -/
theorem atKeyword_keeps (word : Name) : Keeps Underway (atKeyword word) fun _ => True :=
  Leads.peek.bind fun _ _ => .pure trivial

/-- Taking a token, if there is a reason to. -/
theorem next_if_keeps {b : Bool} {parser : Parser α} (h : Keeps Underway parser P) :
    Keeps Underway (if b = true then next >>= fun _ => parser else parser) P := by
  cases b with
  | true => exact next_keeps.bind fun _ _ => h
  | false => exact h

/-- Skipping a punctuator. -/
theorem skipPunct_keeps (p : Punctuator) : Keeps Underway (skipPunct p) fun _ => True := by
  have hat : Keeps Underway (atPunct p) fun _ => True :=
    Leads.peek.bind fun _ _ => .pure trivial
  refine hat.bind fun skipped _ => ?_
  split
  · exact next_keeps.bind fun _ _ => .pure trivial
  · exact .pure trivial

section Loops

variable {start close mark : Punctuator} {item : Parser α}

/-- Items up to a closing punctuator. -/
theorem items_keeps (hitem : Keeps Underway item P) :
    Keeps Underway (items close item) fun as => ∀ a ∈ as, P a :=
  (items_leads hitem).weaken fun _ ⟨_, hclose⟩ => underway_tail hclose

/-- At least one item up to a closing punctuator. -/
theorem items1_keeps (hitem : Keeps Underway item P) :
    Keeps Underway (items1 close item) fun as => ∀ a ∈ as, P a := by
  refine (items_keeps hitem).bind fun as has => ?_
  cases as with
  | nil => exact .failure
  | cons a as => exact .pure has

/-- Items between punctuators, if there are any. -/
theorem group_keeps (hitem : Keeps Underway item P) :
    Keeps Underway (group start close item) fun as => ∀ a ∈ as, P a := by
  refine (skipPunct_keeps start).bind fun skipped _ => ?_
  cases skipped with
  | true => exact items1_keeps hitem
  | false => exact .pure (by simp)

/-- Items that each follow a mark. -/
theorem marked_keeps (hitem : Keeps Underway item P) :
    Keeps Underway (marked mark item) fun as => ∀ a ∈ as, P a := by
  refine Leads.get.bind fun ts _ => ?_
  induction ts.length with
  | zero => exact .pure (by simp)
  | succ bound ih =>
    refine (skipPunct_keeps mark).bind fun skipped _ => ?_
    cases skipped with
    | true =>
      exact hitem.bind fun a ha => ih.bind fun as has => .pure (List.forall_mem_cons.2 ⟨ha, has⟩)
    | false => exact .pure (by simp)

/-- Items that are divided by a mark. -/
theorem divided_keeps (hitem : Keeps Underway item P) :
    Keeps Underway (divided mark item) fun as => ∀ a ∈ as, P a :=
  (skipPunct_keeps mark).bind fun _ _ => hitem.bind fun _ ha =>
    (marked_keeps hitem).bind fun _ has => .pure (List.forall_mem_cons.2 ⟨ha, has⟩)

/-- Items up to the end, at most as many as a bound says. -/
theorem toEnd_more_keeps (hitem : Keeps Underway item P) (bound : Nat) :
    Keeps Underway (toEnd.more item bound) fun as => ∀ a ∈ as, P a := by
  induction bound with
  | zero =>
    refine Leads.get.bind fun ts _ => ?_
    split
    · exact .pure (by simp)
    · exact .failure
  | succ bound ih =>
    refine Leads.get.bind fun ts _ => ?_
    split
    · exact .pure (by simp)
    · exact hitem.bind fun a ha => ih.bind fun as has => .pure (List.forall_mem_cons.2 ⟨ha, has⟩)

/-- Items up to the end. -/
theorem toEnd_keeps (hitem : Keeps Underway item P) :
    Keeps Underway (toEnd item) fun as => ∀ a ∈ as, P a :=
  hitem.bind fun _ ha => Leads.get.bind fun _ _ => (toEnd_more_keeps hitem _).bind fun _ has =>
    .pure (List.forall_mem_cons.2 ⟨ha, has⟩)

end Loops

/-- A type reference. -/
theorem typeExpr_keeps : Keeps Underway typeExpr fun _ => True :=
  keeps_of_sound fun _ _ _ _ hts hread => ⟨(typeExpr_written hts hread).2.2, trivial⟩

/-- What is read of a whole text is as what is read of what is left of a text. -/
theorem parse?_keeps {parser : Parser α} (h : Keeps Underway parser P) {text : String} {a : α}
    (hread : parser.parse? text = some a) : P a := by
  obtain ⟨ts, hts, hread⟩ := Option.bind_eq_some_iff.1 hread
  split at hread
  · next hparser =>
    cases hread
    exact (h ts _ [] ⟨0, tokens?_sound hts⟩ hparser).2
  · cases hread

end Parser

end EntityGraph.Grammar
