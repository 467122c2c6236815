import EntityGraph.Grammar.Parser
import Mathlib.Data.List.TakeDrop
import Mathlib.Data.List.TakeWhile

/-!
# Lexemes

What the characters of a text spell, without the places of its tokens (`lexemes?`). Characters that
are parted from what follows spell the same lexemes wherever they stand (`Spells`), so that what a
text spells is found from its parts: after each part only the number of open brackets counts. The
other way round, the tokens of every text are sound (`Sound`): names are names, integers fit into 64
bits, and brackets never nest too deeply; what is left after some tokens have been taken off is sound
again, from another depth.
-/

namespace EntityGraph.Grammar

/-! ## Tokens that can be read -/

/-- The text is a name. -/
def isName (n : Name) : Bool :=
  match n.toList with
  | [] => false
  | c :: cs => isNameStart c && cs.all isNameRest

/-- What a token of a text can say: names are names, and integers fit into 64 bits. -/
def Lexeme.Readable : Lexeme → Prop
  | .name n => isName n = true
  | .int n => minInt ≤ n ∧ n ≤ maxInt
  | _ => True

/-- A string body ends before a quote. -/
theorem stringBody?_eq_some {cs body rest : List Char} (h : stringBody? cs = some (body, rest)) :
    cs = body ++ '"' :: rest := by
  induction cs using stringBody?.induct generalizing body with
  | case1 => simp [stringBody?] at h
  | case2 rest =>
    simp only [stringBody?] at h
    cases h
    rfl
  | case3 => simp [stringBody?] at h
  | case4 => simp [stringBody?] at h
  | case5 c rest hc ih =>
    simp only [stringBody?, hc, if_false, Option.map_eq_some_iff] at h
    obtain ⟨⟨b, r⟩, hb, he⟩ := h
    cases he
    rw [ih hb]
    rfl
  | case6 c rest _ _ _ ih =>
    rw [stringBody?] at h
    · simp only [Option.map_eq_some_iff] at h
      obtain ⟨⟨b, r⟩, hb, he⟩ := h
      cases he
      rw [ih hb]
      rfl
    all_goals assumption

/-- The body of a block string ends before a triple quote. -/
theorem blockBody?_eq_some {escaped : Bool} {cs body rest : List Char}
    (h : blockBody? escaped cs = some (body, rest)) : cs = body ++ '"' :: '"' :: '"' :: rest := by
  induction escaped, cs using blockBody?.induct generalizing body with
  | case1 => simp [blockBody?] at h
  | case2 rest ih =>
    simp only [blockBody?, if_true, Option.map_eq_some_iff] at h
    obtain ⟨⟨b, r⟩, hb, he⟩ := h
    cases he
    rw [ih hb]
    rfl
  | case3 escaped rest hescaped =>
    simp only [blockBody?, hescaped] at h
    cases h
    rfl
  | case4 escaped c rest hne ih =>
    rw [blockBody?] at h
    · simp only [Option.map_eq_some_iff] at h
      obtain ⟨⟨b, r⟩, hb, he⟩ := h
      cases he
      rw [ih hb]
      rfl
    all_goals assumption

/-- A name may go on with what it may start with. -/
theorem isNameRest_of_isNameStart {c : Char} (h : isNameStart c = true) : isNameRest c = true := by
  unfold isNameStart at h
  unfold isNameRest Char.isAlphanum
  rw [Bool.or_eq_true] at h ⊢
  exact h.imp_left fun ha => by rw [ha]; rfl

/-- What the characters of a name spell is a name. -/
theorem isName_ofList {c : Char} {cs : List Char} (hc : isNameStart c = true)
    (hcs : ∀ x ∈ cs, isNameRest x = true) : isName (.ofList (c :: cs)) = true := by
  simpa [isName, hc] using hcs

/-- An integer that is read after its sign fits into 64 bits. -/
theorem unsigned?_readable {negative : Bool} {cs : List Char} {l : Lexeme}
    (h : unsigned? negative cs = some l) : l.Readable := by
  simp only [unsigned?, bind, Option.bind_eq_some_iff] at h
  obtain ⟨⟨whole, r⟩, -, ⟨fraction, r'⟩, -, exponent, -, h⟩ := h
  cases fraction <;> cases exponent <;> simp only [Option.ite_none_right_eq_some] at h
  · obtain ⟨hrange, h⟩ := h
    cases h
    exact hrange
  all_goals cases h; trivial

/-- An integer that is read fits into 64 bits. -/
theorem number?_readable {cs : List Char} {l : Lexeme} (h : number? cs = some l) : l.Readable := by
  unfold number? at h
  split at h <;> exact unsigned?_readable h

/-- A token takes its characters off the text, at least one. -/
theorem lexeme?_eq_some {cs text rest : List Char} {l : Lexeme}
    (h : lexeme? cs = some (l, text, rest)) : cs = text ++ rest ∧ text ≠ [] ∧ l.Readable := by
  unfold lexeme? at h
  split at h
  · cases h; exact ⟨rfl, by simp, trivial⟩
  · next tail =>
    simp only [bind, Option.bind_eq_some_iff] at h
    obtain ⟨⟨body, r⟩, hbody, h⟩ := h
    cases h
    exact ⟨by simp [blockBody?_eq_some hbody], by simp, trivial⟩
  · next tail _ =>
    simp only [bind, Option.bind_eq_some_iff] at h
    obtain ⟨⟨body, r⟩, hbody, value, -, h⟩ := h
    cases h
    exact ⟨by simp [stringBody?_eq_some hbody], by simp, trivial⟩
  · next c tail _ _ _ =>
    split at h
    · next hstart =>
      have hspan : (c :: tail).span isNameRest =
          (c :: tail.takeWhile isNameRest, tail.dropWhile isNameRest) := by
        rw [List.span_eq_takeWhile_dropWhile]
        simp [isNameRest_of_isNameStart hstart]
      rw [hspan] at h
      cases h
      refine ⟨by simp, by simp, isName_ofList hstart fun x hx => ?_⟩
      exact List.mem_takeWhile_imp hx
    · split at h
      · rw [List.span_eq_takeWhile_dropWhile] at h
        simp only [bind, Option.bind_eq_some_iff] at h
        obtain ⟨l', hnumber, h⟩ := h
        cases h
        exact ⟨by simp, by simp, number?_readable hnumber⟩
      · simp only [bind, Option.bind_eq_some_iff] at h
        obtain ⟨p, -, h⟩ := h
        cases h
        exact ⟨rfl, by simp, trivial⟩
  · cases h

/-- What follows the first token is shorter than the text. -/
theorem length_of_lexeme? {c : Char} {cs text rest : List Char} {l : Lexeme}
    (h : lexeme? (c :: cs) = some (l, text, rest)) : rest.length ≤ cs.length := by
  obtain ⟨heq, hne, -⟩ := lexeme?_eq_some h
  have hpos := List.length_pos_iff.2 hne
  have hlength := congrArg List.length heq
  simp only [List.length_cons, List.length_append] at hlength
  omega

/-! ## Lexemes of a text -/

/-- How many brackets are open after some lexemes. -/
def nestAll (depth : Nat) (ls : List Lexeme) : Option Nat := ls.foldlM Lexeme.nest depth

/-- The lexemes that characters spell, when `depth` brackets are open before them. -/
def lexemes? (depth : Nat) (cs : List Char) : Option (List Lexeme) :=
  (scan cs.length .start depth cs).map (·.map (·.lexeme))

/-- What follows a comment is shorter than the comment and what follows. -/
theorem length_of_dropWhile_eq_cons {p : Char → Bool} {cs rest : List Char} {c : Char}
    (h : cs.dropWhile p = c :: rest) : rest.length < cs.length := by
  have hsuffix : c :: rest <:+ cs := h ▸ List.dropWhile_suffix p
  exact hsuffix.length_le

/-- Whether a token may start with the character. -/
def startsToken (c : Char) : Bool := c ∉ [' ', ',', '\t', '\n', '\r', '\ufeff', '#']

/-- The lexemes of one more token. -/
theorem map_lexemes_cons (ts : Option (List Token)) (t : Token) :
    (ts >>= fun more => some (t :: more)).map (·.map (·.lexeme)) =
      (ts.map (·.map (·.lexeme))).map (t.lexeme :: ·) := by
  cases ts <;> rfl

/-- At the start of a token its lexeme comes first, and then what the rest spells. -/
theorem scan_token {c : Char} (hc : startsToken c = true) {fuel : Nat} {pos : Pos} {depth : Nat}
    {cs : List Char} : (scan (fuel + 1) pos depth (c :: cs)).map (·.map (·.lexeme)) =
      (lexeme? (c :: cs)).bind fun (l, text, rest) => (l.nest depth).bind fun depth =>
        ((scan fuel (pos.after text) depth rest).map (·.map (·.lexeme))).map (l :: ·) := by
  simp only [startsToken, List.mem_cons, List.not_mem_nil, or_false, not_or,
    decide_eq_true_eq] at hc
  obtain ⟨h₁, h₂, h₃, h₄, h₅, h₆, h₇⟩ := hc
  rw [scan]
  simp only [h₁, h₂, h₃, h₄, h₅, h₆, h₇, or_self, if_false]
  cases lexeme? (c :: cs) with
  | none => rfl
  | some r =>
    obtain ⟨l, text, rest⟩ := r
    simp only [Option.bind_eq_bind, Option.bind_some]
    cases l.nest depth with
    | none => rfl
    | some d => exact map_lexemes_cons _ ⟨pos, l⟩

/-- What is spelled depends neither on the place of a text nor on how much longer it could be. -/
theorem scan_lexemes_congr {fuel fuel' : Nat} {pos pos' : Pos} {depth : Nat} {cs : List Char}
    (h : cs.length ≤ fuel) (h' : cs.length ≤ fuel') :
    (scan fuel pos depth cs).map (·.map (·.lexeme)) =
      (scan fuel' pos' depth cs).map (·.map (·.lexeme)) := by
  induction fuel generalizing fuel' pos pos' depth cs with
  | zero =>
    have hnil : cs = [] := List.eq_nil_of_length_eq_zero (Nat.le_zero.1 h)
    subst hnil
    cases fuel' <;> rfl
  | succ fuel ih =>
    cases cs with
    | nil => cases fuel' <;> rfl
    | cons c cs =>
      cases fuel' with
      | zero => exact absurd h' (Nat.not_succ_le_zero _)
      | succ fuel' =>
        have hc : cs.length ≤ fuel := Nat.le_of_succ_le_succ h
        have hc' : cs.length ≤ fuel' := Nat.le_of_succ_le_succ h'
        by_cases hstart : startsToken c = true
        · rw [scan_token hstart, scan_token hstart]
          refine Option.bind_congr fun ⟨l, text, rest⟩ hl => Option.bind_congr fun d _ => ?_
          have hle : rest.length ≤ cs.length := length_of_lexeme? hl
          rw [ih (hle.trans hc) (hle.trans hc')]
        · unfold scan
          split
          · exact ih hc hc'
          split
          · exact ih hc hc'
          split
          · exact ih hc hc'
          split
          · exact ih hc hc'
          split
          · split
            · rfl
            · next hdrop =>
              have hlt := length_of_dropWhile_eq_cons hdrop
              exact ih (by omega) (by omega)
          · simp_all [startsToken]

/-- The lexemes of tokens do not depend on where the text starts. -/
theorem scan_lexemes {fuel : Nat} {pos : Pos} {depth : Nat} {cs : List Char} (h : cs.length ≤ fuel) :
    (scan fuel pos depth cs).map (·.map (·.lexeme)) = lexemes? depth cs :=
  scan_lexemes_congr h le_rfl

/-- Spaces and commas spell nothing. -/
theorem lexemes?_skip {c : Char} (hc : c = ' ' ∨ c = ',') (depth : Nat) (cs : List Char) :
    lexemes? depth (c :: cs) = lexemes? depth cs := by
  rw [lexemes?, List.length_cons, scan, if_pos hc]
  exact scan_lexemes le_rfl

/-- The first lexeme of a text, and what the rest spells. -/
theorem lexemes?_cons {c : Char} (hc : startsToken c = true) (depth : Nat) (cs : List Char) :
    lexemes? depth (c :: cs) = (lexeme? (c :: cs)).bind fun (l, _, rest) =>
      (l.nest depth).bind fun depth => (lexemes? depth rest).map (l :: ·) := by
  rw [lexemes?, List.length_cons, scan_token hc]
  refine Option.bind_congr fun ⟨l, text, rest⟩ hl => Option.bind_congr fun d _ => ?_
  rw [scan_lexemes (length_of_lexeme? hl)]

/-- A punctuator is a token by itself. -/
theorem lexeme?_punct {c : Char} {p : Punctuator} (hp : Punctuator.ofChar? c = some p)
    (rest : List Char) :
    startsToken c = true ∧ lexeme? (c :: rest) = some (.punct p, [c], rest) := by
  unfold Punctuator.ofChar? at hp
  split at hp <;> cases hp <;> exact ⟨by decide, rfl⟩

/-- How many brackets are open after one lexeme and others. -/
theorem nestAll_cons (depth : Nat) (l : Lexeme) (ls : List Lexeme) :
    nestAll depth (l :: ls) = (l.nest depth).bind (nestAll · ls) := List.foldlM_cons

/-- How many brackets are open after some lexemes and others. -/
theorem nestAll_append (depth : Nat) (ls ls' : List Lexeme) :
    nestAll depth (ls ++ ls') = (nestAll depth ls).bind (nestAll · ls') := List.foldlM_append

/-! ## Spelling -/

/-- The text is over, or something follows that ends a name or a number. -/
def Parted (rest : List Char) : Prop := ∀ c ∈ rest.head?, endsNumber c = true

/-- A character that ends numbers parts what follows it from what stands before it. -/
theorem parted_cons {c : Char} {cs : List Char} (hc : endsNumber c = true) : Parted (c :: cs) := by
  intro x hx
  cases hx
  exact hc

/-- The characters spell the lexemes `ls?` wherever they are parted from what follows, or the text
has no lexemes if they spell none. -/
def Spells (cs : List Char) (ls? : Option (List Lexeme)) : Prop :=
  ∀ depth rest, Parted rest → lexemes? depth (cs ++ rest) = ls?.bind fun ls =>
    (nestAll depth ls).bind fun depth => (lexemes? depth rest).map (ls ++ ·)

namespace Spells

variable {cs cs' : List Char} {ls? ls?' : Option (List Lexeme)} {c : Char}

/-- No characters spell no lexemes. -/
theorem nil : Spells [] (some []) := fun depth rest _ => by simp [nestAll]

/-- A space or a comma may stand before the characters. -/
theorem skip (hc : c = ' ' ∨ c = ',') (h : Spells cs ls?) : Spells (c :: cs) ls? :=
  fun depth rest hrest => (lexemes?_skip hc depth _).trans (h depth rest hrest)

/-- A punctuator may stand before the characters. -/
theorem punct {p : Punctuator} (hp : Punctuator.ofChar? c = some p) (h : Spells cs ls?) :
    Spells (c :: cs) (ls?.map (.punct p :: ·)) := by
  intro depth rest hrest
  obtain ⟨hstart, hlexeme⟩ := lexeme?_punct hp (cs ++ rest)
  rw [List.cons_append, lexemes?_cons hstart, hlexeme, Option.bind_some]
  simp only [h _ rest hrest]
  cases ls? with
  | none => simp
  | some ls =>
    simp only [Option.map_some, Option.bind_some, nestAll_cons, Option.map_bind, Option.bind_assoc]
    simp [Function.comp_def]

/-- Characters that are parted from those before them may follow. -/
theorem append (h : Spells cs ls?) (h' : Spells cs' ls?')
    (hparted : ∀ rest, Parted rest → Parted (cs' ++ rest)) :
    Spells (cs ++ cs') (ls?.bind fun ls => ls?'.map (ls ++ ·)) := by
  intro depth rest hrest
  rw [List.append_assoc, h depth _ (hparted rest hrest)]
  simp only [h' _ rest hrest]
  cases ls? with
  | none => rfl
  | some ls =>
    cases ls?' with
    | none => simp
    | some ls' => simp [nestAll_append, Option.map_bind, Option.bind_assoc, Function.comp_def]

/-- Characters that are one token, or no token, whatever they are parted from. -/
theorem single {o : Option Lexeme} (hc : startsToken c = true)
    (h : ∀ rest, Parted rest → lexeme? (c :: cs ++ rest) = o.map fun l => (l, c :: cs, rest)) :
    Spells (c :: cs) (o.map ([·])) := by
  intro depth rest hrest
  rw [List.cons_append, lexemes?_cons hc, ← List.cons_append, h rest hrest]
  cases o with
  | none => rfl
  | some l => simp [nestAll]

end Spells

/-! ## Sound tokens -/

/-- What is known of the tokens of a text, and of what is left of them after some tokens: they can be
read, and from the depth at which they start, brackets never nest too deeply. -/
structure Sound (depth : Nat) (ts : List Token) : Prop where
  readable : ∀ t ∈ ts, t.lexeme.Readable
  bounded : depth ≤ 50
  nested : (nestAll depth (ts.map (·.lexeme))).isSome = true

/-- Brackets never nest deeper than they may. -/
theorem nest_bounded {l : Lexeme} {depth depth' : Nat} (h : l.nest depth = some depth')
    (hdepth : depth ≤ 50) : depth' ≤ 50 := by
  cases l with
  | punct p =>
    change p.nest depth = some depth' at h
    unfold Punctuator.nest at h
    split at h
    · split at h <;> cases h; omega
    · split at h <;> cases h; omega
    · split at h <;> cases h; omega
    all_goals cases h; omega
  | _ => cases h; exact hdepth

/-- No tokens are sound. -/
theorem Sound.nil {depth : Nat} (h : depth ≤ 50) : Sound depth [] := ⟨by simp, h, rfl⟩

/-- What is left after the first token is sound at the depth that it leads to. -/
theorem Sound.tail {depth : Nat} {t : Token} {ts : List Token} (h : Sound depth (t :: ts)) :
    ∃ depth', t.lexeme.nest depth = some depth' ∧ Sound depth' ts := by
  have hnested := h.nested
  rw [List.map_cons, nestAll_cons] at hnested
  cases hn : t.lexeme.nest depth with
  | none => rw [hn] at hnested; cases hnested
  | some depth' =>
    rw [hn] at hnested
    exact ⟨depth', rfl, fun x hx => h.readable x (.tail _ hx), nest_bounded hn h.bounded, hnested⟩

/-- The tokens of a text are sound. -/
theorem scan_sound {fuel : Nat} {pos : Pos} {depth : Nat} {cs : List Char} {ts : List Token}
    (hdepth : depth ≤ 50) (h : scan fuel pos depth cs = some ts) : Sound depth ts := by
  induction fuel generalizing pos depth cs ts with
  | zero =>
    cases cs with
    | nil => cases h; exact .nil hdepth
    | cons => cases h
  | succ fuel ih =>
    cases cs with
    | nil => cases h; exact .nil hdepth
    | cons c cs =>
      unfold scan at h
      split at h
      · exact ih hdepth h
      split at h
      · exact ih hdepth h
      split at h
      · exact ih hdepth h
      split at h
      · exact ih hdepth h
      split at h
      · split at h
        · cases h; exact .nil hdepth
        · exact ih hdepth h
      · simp only [Option.bind_eq_bind, Option.bind_eq_some_iff] at h
        obtain ⟨⟨l, text, rest⟩, hl, d, hd, more, hmore, h⟩ := h
        cases h
        have hsound := ih (nest_bounded hd hdepth) hmore
        refine ⟨List.forall_mem_cons.2 ⟨(lexeme?_eq_some hl).2.2, hsound.readable⟩, hdepth, ?_⟩
        rw [List.map_cons, nestAll_cons, hd]
        exact hsound.nested

/-- The tokens of a text are sound from its start. -/
theorem tokens?_sound {text : String} {ts : List Token} (h : tokens? text = some ts) :
    Sound 0 ts := scan_sound (Nat.zero_le _) h

/-- What is left of sound tokens is sound, at some depth. -/
theorem Sound.suffix {depth : Nat} {ts rest : List Token} (h : Sound depth ts)
    (hrest : rest <:+ ts) : ∃ depth', Sound depth' rest := by
  induction ts generalizing depth with
  | nil => exact ⟨depth, List.suffix_nil.1 hrest ▸ h⟩
  | cons t ts ih =>
    rcases List.suffix_cons_iff.1 hrest with rfl | hrest
    · exact ⟨depth, h⟩
    · obtain ⟨depth', -, htail⟩ := h.tail
      exact ih htail hrest

/-! ## Reading lexemes -/

/-- The first of some tokens with a known first lexeme. -/
theorem exists_of_map_cons {ts : List Token} {l : Lexeme} {ls : List Lexeme}
    (h : ts.map (·.lexeme) = l :: ls) : ∃ pos rest, ts = ⟨pos, l⟩ :: rest ∧
      rest.map (·.lexeme) = ls := by
  obtain ⟨t, rest, rfl, rfl, hrest⟩ := List.map_eq_cons_iff.1 h
  exact ⟨t.pos, rest, rfl, hrest⟩

namespace Parser

variable {α : Type} {parser : Parser α} {text : String} {a : α} {ls : List Lexeme}

/-- A text without lexemes cannot be read. -/
theorem parse?_eq_none (h : lexemes? 0 text.toList = none) : parser.parse? text = none := by
  have htokens : tokens? text = none := Option.map_eq_none_iff.1 h
  rw [parse?, htokens]
  rfl

/-- What a parser reads off tokens with the lexemes of a text is read off the text. -/
theorem parse?_eq_some (h : lexemes? 0 text.toList = some ls)
    (hparser : ∀ ts, ts.map (·.lexeme) = ls →
      ∃ rest, parser ts = some (a, rest) ∧ rest.map (·.lexeme) = []) :
    parser.parse? text = some a := by
  obtain ⟨ts, htokens, hts⟩ := Option.map_eq_some_iff.1 h
  obtain ⟨rest, hread, hrest⟩ := hparser ts hts
  cases List.map_eq_nil_iff.1 hrest
  rw [parse?, show tokens? text = some ts from htokens]
  simp only [Option.bind_eq_bind, Option.bind_some, hread]

end Parser

end EntityGraph.Grammar
