import EntityGraph.DeclaredType
import EntityGraph.Proofs.Grammar.Spelling

/-!
# Types that are read back

A declared type says of each of its levels whether the value may be null, and a type reference marks
the levels where it may not. Each stands for the other (`DeclaredType.toTypeExpr`,
`DeclaredType.ofTypeExpr`), so the text of a declared type is read as the type, as long as it has no
more lists than brackets may nest (`DeclaredType.parse?_render`); a type reference that was read
anywhere in a text has no mark on a mark and no more lists (`Parser.typeExpr_written`), so it is read
back from the text of what it stands for. Main statement: `DeclaredType.render_read`.
-/

namespace EntityGraph

open Grammar

/-! ## Two forms of a type -/

namespace Grammar.TypeExpr

/-- How many lists a type reference has. -/
def depth : TypeExpr → Nat
  | .named _ => 0
  | .list inner => inner.depth + 1
  | .nonNull inner => inner.depth

/-- Whether the mark of a type that may not be null stands outside. -/
def isMarked : TypeExpr → Bool
  | .nonNull _ => true
  | _ => false

/-- What a type reference is when it is read: its name is a name, and no mark stands on a mark. -/
def Written : TypeExpr → Prop
  | .named n => isName n = true
  | .list inner => inner.Written
  | .nonNull inner => inner.Written ∧ inner.isMarked = false

end Grammar.TypeExpr

namespace DeclaredType

variable {a b t : DeclaredType}

/-- How many lists a declared type has. -/
def depth : DeclaredType → Nat
  | named _ _ => 0
  | list inner _ => inner.depth + 1

/-- A type reference with a mark, unless it may be null. -/
def mark (nullable : Bool) (e : TypeExpr) : TypeExpr := if nullable then e else .nonNull e

/-- The type reference that stands for a declared type. -/
def toTypeExpr : DeclaredType → TypeExpr
  | named n nullable => mark nullable (.named n)
  | list inner nullable => mark nullable (.list inner.toTypeExpr)

/-- A declared type is what its type reference stands for. -/
theorem ofTypeExpr_toTypeExpr (t : DeclaredType) : ofTypeExpr t.toTypeExpr = t := by
  induction t with
  | named n nullable => cases nullable <;> rfl
  | list inner nullable ih =>
    rw [ofTypeExpr] at ih
    cases nullable <;> simp [toTypeExpr, mark, ofTypeExpr, ofTypeExprWith, ih]

/-- A type reference without doubled marks is the one for what it stands for, with the mark that is
asked for outside. -/
theorem toTypeExpr_ofTypeExprWith {e : TypeExpr} (h : e.Written) {nullable : Bool}
    (hmark : nullable = false → e.isMarked = false) :
    (ofTypeExprWith nullable e).toTypeExpr = mark nullable e := by
  induction e generalizing nullable with
  | named n => rfl
  | list inner ih =>
    have hinner : (ofTypeExprWith true inner).toTypeExpr = inner := ih h (by simp)
    rw [ofTypeExprWith, toTypeExpr, hinner]
  | nonNull inner ih =>
    cases nullable with
    | true => exact ih h.1 fun _ => h.2
    | false => cases hmark rfl

/-- The type reference for what a type reference without doubled marks stands for is the same. -/
theorem toTypeExpr_ofTypeExpr {e : TypeExpr} (h : e.Written) : (ofTypeExpr e).toTypeExpr = e :=
  toTypeExpr_ofTypeExprWith h (by simp)

/-- What a type reference stands for has its name and its lists. -/
theorem ofTypeExprWith_shape {e : TypeExpr} (h : e.Written) (nullable : Bool) :
    isName (ofTypeExprWith nullable e).innermostName = true ∧
      (ofTypeExprWith nullable e).depth = e.depth := by
  induction e generalizing nullable with
  | named n => exact ⟨h, rfl⟩
  | list inner ih => exact ⟨(ih h true).1, congrArg (· + 1) (ih h true).2⟩
  | nonNull inner ih => exact ih h.1 false

/-! ## The text of a declared type -/

/-- The lexeme of the mark. -/
def bangLexemes (nullable : Bool) : List Lexeme := if nullable then [] else [.punct .bang]

/-- The lexemes of the text of a declared type. -/
def lexemes : DeclaredType → List Lexeme
  | named n nullable => .name n :: bangLexemes nullable
  | list inner nullable =>
    .punct .openBracket :: (inner.lexemes ++ .punct .closeBracket :: bangLexemes nullable)

/-- The characters of the mark. -/
theorem toList_bang (nullable : Bool) :
    (bang nullable).toList = if nullable then [] else ['!'] := by
  cases nullable <;> rfl

/-- The mark spells itself. -/
theorem spells_bang (nullable : Bool) :
    Spells (bang nullable).toList (some (bangLexemes nullable)) := by
  cases nullable with
  | true => exact .nil
  | false => exact .punct (p := .bang) rfl .nil

/-- The mark is parted from what stands before it. -/
theorem parted_bang {rest : List Char} (nullable : Bool) (h : Parted rest) :
    Parted ((bang nullable).toList ++ rest) := by
  cases nullable with
  | true => exact h
  | false => exact parted_cons rfl

/-- The text of a declared type spells its lexemes. -/
theorem spells_render (h : isName t.innermostName = true) :
    Spells t.render.toList (some t.lexemes) := by
  induction t with
  | named n nullable =>
    rw [render, String.toList_append]
    exact (spells_name h).append (spells_bang nullable) fun rest => parted_bang nullable
  | list inner nullable ih =>
    have hlist : (render (list inner nullable)).toList =
        '[' :: (inner.render.toList ++ ']' :: (bang nullable).toList) := by
      simp [render]
    rw [hlist]
    have hclose : Spells (']' :: (bang nullable).toList)
        (some (.punct .closeBracket :: bangLexemes nullable)) := .punct rfl (spells_bang nullable)
    exact .punct (p := .openBracket) rfl ((ih h).append hclose fun _ _ => parted_cons rfl)

/-- Reading the text of a declared type needs a bracket for each of its lists. -/
theorem nestAll_lexemes {depth : Nat} (hdepth : depth ≤ 50) :
    nestAll depth t.lexemes = if depth + t.depth ≤ 50 then some depth else none := by
  have hbang : ∀ d nullable, nestAll d (bangLexemes nullable) = some d := fun d nullable => by
    cases nullable <;> rfl
  induction t generalizing depth with
  | named n nullable =>
    have hlexemes : nestAll depth (lexemes (named n nullable)) = some depth := by
      rw [lexemes, nestAll_cons]
      exact hbang depth nullable
    rw [hlexemes]
    exact (if_pos hdepth).symm
  | list inner nullable ih =>
    rw [lexemes, nestAll_cons, DeclaredType.depth]
    by_cases hlt : depth < 50
    · have hopen : Lexeme.nest depth (.punct .openBracket) = some (depth + 1) := if_pos hlt
      have hclose : nestAll (depth + 1) (.punct .closeBracket :: bangLexemes nullable) =
          some depth := by
        rw [nestAll_cons]
        exact hbang depth nullable
      have hinner := ih (show depth + 1 ≤ 50 from hlt)
      have hsum : depth + 1 + inner.depth = depth + (inner.depth + 1) := by omega
      rw [hopen, Option.bind_some, nestAll_append, hinner, hsum]
      split
      · exact hclose
      · rfl
    · have hopen : Lexeme.nest depth (.punct .openBracket) = none := if_neg hlt
      rw [hopen, if_neg (by omega)]
      rfl

/-! ## Reading the text -/

/-- A mark is taken off if it stands there. -/
theorem withBang_lexemes {ts : List Token} {ls : List Lexeme} {nullable : Bool} (e : TypeExpr)
    (h : ts.map (·.lexeme) = bangLexemes nullable ++ ls) (hls : ls.head? ≠ some (.punct .bang)) :
    ∃ rest, Parser.withBang e ts = (mark nullable e, rest) ∧ rest.map (·.lexeme) = ls := by
  cases nullable with
  | true =>
    refine ⟨ts, ?_, h⟩
    unfold Parser.withBang
    split
    · next rest _ =>
      rw [← show _ = ls from h] at hls
      exact absurd rfl hls
    · rfl
  | false =>
    obtain ⟨pos, rest, rfl, hrest⟩ := exists_of_map_cons h
    exact ⟨rest, rfl, hrest⟩

/-- Tokens with the lexemes of a declared type are read as its type reference. -/
theorem typeExpr_lexemes {ts : List Token} {ls : List Lexeme}
    (h : ts.map (·.lexeme) = t.lexemes ++ ls) (hls : ls.head? ≠ some (.punct .bang)) :
    ∃ rest, Parser.typeExpr ts = some (t.toTypeExpr, rest) ∧ rest.map (·.lexeme) = ls := by
  induction t generalizing ts ls with
  | named n nullable =>
    obtain ⟨pos, ts, rfl, hts⟩ := exists_of_map_cons h
    obtain ⟨rest, hbang, hrest⟩ := withBang_lexemes (.named n) hts hls
    exact ⟨rest, by rw [Parser.typeExpr, hbang]; rfl, hrest⟩
  | list inner nullable ih =>
    rw [lexemes, List.cons_append, List.append_assoc, List.cons_append] at h
    obtain ⟨pos, ts, rfl, hts⟩ := exists_of_map_cons h
    obtain ⟨closed, hinner, hclosed⟩ := ih hts (by simp)
    obtain ⟨pos', ts', rfl, hts'⟩ := exists_of_map_cons hclosed
    obtain ⟨rest, hbang, hrest⟩ := withBang_lexemes (.list inner.toTypeExpr) hts' hls
    exact ⟨rest, by rw [Parser.typeExpr, hinner]; simp only [hbang]; rfl, hrest⟩

/-- The text of a declared type is read as its type reference, unless it has more lists than
brackets may nest. -/
theorem parse?_render (h : isName t.innermostName = true) :
    TypeExpr.parse? t.render = if t.depth ≤ 50 then some t.toTypeExpr else none := by
  have hspells := spells_render h 0 [] (by simp [Parted])
  rw [List.append_nil, Option.bind_some, nestAll_lexemes (Nat.zero_le _), Nat.zero_add] at hspells
  split at hspells
  · next hdepth =>
    have hlexemes : lexemes? 0 t.render.toList = some (t.lexemes ++ []) := hspells
    rw [if_pos hdepth]
    exact Parser.parse?_eq_some hlexemes fun ts hts => typeExpr_lexemes hts (by simp)
  · next hdepth =>
    rw [if_neg hdepth]
    exact Parser.parse?_eq_none hspells

/-! ## Equal texts -/

/-- Equal texts before two marks end in equal marks. -/
theorem bang_inj {xs ys : List Char} {n m : Bool} (hxs : xs.getLast? ≠ some '!')
    (hys : ys.getLast? ≠ some '!') (h : xs ++ (bang n).toList = ys ++ (bang m).toList) :
    xs = ys ∧ n = m := by
  rw [toList_bang, toList_bang] at h
  cases n <;> cases m
  · simpa using h
  · have hlast : (xs ++ ['!']).getLast? = ys.getLast? := congrArg List.getLast? (by simpa using h)
    rw [List.getLast?_append] at hlast
    exact absurd hlast.symm hys
  · have hlast : xs.getLast? = (ys ++ ['!']).getLast? := congrArg List.getLast? (by simpa using h)
    rw [List.getLast?_append] at hlast
    exact absurd hlast hxs
  · simpa using h

/-- A name starts like a name and does not end in a mark. -/
theorem head?_and_getLast?_of_isName {n : Name} (h : isName n = true) :
    n.toList.head? ≠ some '[' ∧ n.toList.getLast? ≠ some '!' := by
  unfold isName at h
  split at h
  · cases h
  · next c cs hcs =>
    rw [Bool.and_eq_true, List.all_eq_true] at h
    rw [hcs]
    constructor
    · rintro hc
      cases hc
      cases h.1
    · intro hlast
      have hall : ∀ x ∈ c :: cs, isNameRest x = true :=
        List.forall_mem_cons.2 ⟨isNameRest_of_isNameStart h.1, h.2⟩
      cases hall '!' (List.mem_of_getLast? hlast)

/-- The text of a list type is the text of its items in brackets, before the mark. -/
theorem toList_render_list (inner : DeclaredType) (nullable : Bool) :
    (render (list inner nullable)).toList =
      ('[' :: (inner.render.toList ++ [']'])) ++ (bang nullable).toList := by
  simp [render]

/-- Brackets do not end in a mark. -/
theorem getLast?_brackets (cs : List Char) : ('[' :: (cs ++ [']'])).getLast? ≠ some '!' := by
  rw [← List.cons_append, List.getLast?_concat]
  decide

/-- The text of a named type is its name before the mark. -/
theorem toList_render_named (n : Name) (nullable : Bool) :
    (render (named n nullable)).toList = n.toList ++ (bang nullable).toList := by
  simp [render]

/-- A list type and a named type have different texts. -/
theorem render_list_ne_named {inner : DeclaredType} {n : Name} {nullable nullable' : Bool}
    (h : isName n = true) : render (list inner nullable) ≠ render (named n nullable') := by
  intro heq
  have hlist := congrArg String.toList heq
  rw [toList_render_list, toList_render_named] at hlist
  have hhead := congrArg List.head? hlist
  cases hn : n.toList with
  | nil => simp [isName, hn] at h
  | cons c cs =>
    rw [hn] at hhead
    cases hhead
    exact (head?_and_getLast?_of_isName h).1 (by rw [hn]; rfl)

/-- Declared types with the same text are the same. -/
theorem render_injective (ha : isName a.innermostName = true) (hb : isName b.innermostName = true)
    (h : a.render = b.render) : a = b := by
  induction a generalizing b with
  | named n nullable =>
    cases b with
    | named m nullable' =>
      have hlist := congrArg String.toList h
      rw [toList_render_named, toList_render_named] at hlist
      obtain ⟨hname, rfl⟩ := bang_inj (head?_and_getLast?_of_isName ha).2
        (head?_and_getLast?_of_isName hb).2 hlist
      have hsame : n = m := String.toList_injective hname
      rw [hsame]
    | list inner' nullable' => exact absurd h.symm (render_list_ne_named ha)
  | list inner nullable ih =>
    cases b with
    | named m nullable' => exact absurd h (render_list_ne_named hb)
    | list inner' nullable' =>
      have hlist := congrArg String.toList h
      rw [toList_render_list, toList_render_list] at hlist
      obtain ⟨hbrackets, rfl⟩ := bang_inj (getLast?_brackets _) (getLast?_brackets _) hlist
      have hchars : inner.render.toList = inner'.render.toList := by simpa using hbrackets
      have hinner : inner = inner' := ih ha hb (String.toList_injective hchars)
      rw [hinner]

end DeclaredType

/-! ## Type references that were read -/

namespace Grammar.Parser

variable {depth : Nat} {ts rest : List Token} {e e' : TypeExpr}

/-- A mark is read once, and leaves the depth as it is. -/
theorem withBang_written (hs : Sound depth ts) (he : e.Written) (hmark : e.isMarked = false)
    (h : withBang e ts = (e', rest)) : e'.Written ∧ e'.depth = e.depth ∧ Sound depth rest := by
  unfold withBang at h
  split at h <;> cases h
  · obtain ⟨depth', hdepth, htail⟩ := hs.tail
    cases hdepth
    exact ⟨⟨he, hmark⟩, rfl, htail⟩
  · exact ⟨he, rfl, hs⟩

/-- A type reference that is read has a name and no mark on a mark, and no more lists than brackets
may nest. -/
theorem typeExpr_written (hs : Sound depth ts) (h : typeExpr ts = some (e, rest)) :
    e.Written ∧ depth + e.depth ≤ 50 ∧ Sound depth rest := by
  induction ts using typeExpr.induct generalizing depth e rest with
  | case1 pos n tail =>
    obtain ⟨depth', hdepth, htail⟩ := hs.tail
    cases hdepth
    rw [typeExpr, Option.some.injEq] at h
    have hname : isName n = true := hs.readable _ (.head _)
    obtain ⟨hwritten, hsame, hrest⟩ := withBang_written htail (e := .named n) hname rfl h
    exact ⟨hwritten, hsame ▸ hs.bounded, hrest⟩
  | case2 pos tail e₁ pos' rest₁ hinner ih =>
    rw [typeExpr, hinner] at h
    simp only [Option.some.injEq] at h
    obtain ⟨opened, hopen, htail⟩ := hs.tail
    obtain ⟨hlt, hopened⟩ := Option.ite_none_right_eq_some.1 hopen
    cases hopened
    obtain ⟨hwritten, hdepth, hrest₁⟩ := ih htail hinner
    obtain ⟨closed, hclose, hclosed⟩ := hrest₁.tail
    cases hclose
    obtain ⟨hlist, hsame, hrest⟩ := withBang_written hclosed (e := .list e₁) hwritten rfl h
    refine ⟨hlist, ?_, hrest⟩
    rw [hsame, TypeExpr.depth]
    omega
  | case3 pos tail hnone =>
    rw [typeExpr] at h
    split at h
    · next hinner => exact absurd hinner (hnone _ _ _)
    · cases h
  | case4 ts hname hlist =>
    rw [typeExpr] at h
    · cases h
    all_goals assumption

end Grammar.Parser

/-! ## Types and their texts -/

namespace DeclaredType

/-- A declared type with a name is read back from its text, unless it has more lists than brackets
may nest. A type reference that was read in some text is read back from the text of the declared type
that it stands for. Two declared types with names have the same text exactly if they describe the same
shape of response. -/
theorem render_read :
    (∀ t : DeclaredType, isName t.innermostName = true →
      (TypeExpr.parse? t.render).map ofTypeExpr = if t.depth ≤ 50 then some t else none) ∧
    (∀ text tokens ts e rest, tokens? text = some tokens → ts <:+ tokens →
      Parser.typeExpr ts = some (e, rest) → TypeExpr.parse? (ofTypeExpr e).render = some e) ∧
    ∀ a b : DeclaredType, isName a.innermostName = true → isName b.innermostName = true →
      (a.render = b.render ↔ a.mergesWith b = true) := by
  refine ⟨fun t ht => ?_, fun text tokens ts e rest htokens hts hread => ?_, fun a b ha hb => ?_⟩
  · rw [parse?_render ht]
    split
    · rw [Option.map_some, ofTypeExpr_toTypeExpr]
    · rfl
  · obtain ⟨depth, hsound⟩ := (tokens?_sound htokens).suffix hts
    obtain ⟨hwritten, hdepth, -⟩ := Parser.typeExpr_written hsound hread
    obtain ⟨hname, hsame⟩ : isName (ofTypeExpr e).innermostName = true ∧
        (ofTypeExpr e).depth = e.depth := ofTypeExprWith_shape hwritten true
    have hle : (ofTypeExpr e).depth ≤ 50 := by omega
    rw [parse?_render hname, if_pos hle, toTypeExpr_ofTypeExpr hwritten]
  · rw [mergesWith, decide_eq_true_eq]
    exact ⟨render_injective ha hb, congrArg render⟩

/-- Required lists of optional lists of required integers, read where they stand in a text, and told
from lists that may be null. -/
theorem integers_read :
    let t : DeclaredType := list (list (named "Int" false) true) false
    t.render = "[[Int!]]!" ∧ (TypeExpr.parse? t.render).map ofTypeExpr = some t ∧
      TypeExpr.parse? (ofTypeExpr t.toTypeExpr).render = some t.toTypeExpr ∧
      ¬ t.render = (list (list (named "Int" false) true) true).render := by
  obtain ⟨hback, hread, hsame⟩ := render_read
  refine ⟨by decide +kernel, ?_, ?_, ?_⟩
  · exact hback _ (by decide +kernel)
  · cases htokens : tokens? "a: [[Int!]]!" with
    | none => exact absurd htokens (by decide +kernel)
    | some tokens =>
      refine hread _ tokens (tokens.drop 2) _ [] htokens (List.drop_suffix _ _) ?_
      have hdrop : (tokens? "a: [[Int!]]!").bind (fun ts => Parser.typeExpr (ts.drop 2)) =
          some (toTypeExpr (list (list (named "Int" false) true) false), []) := by decide +kernel
      rwa [htokens] at hdrop
  · rw [hsame _ _ (by decide +kernel) (by decide +kernel)]
    decide

/-- A number of lists of integers in each other. -/
def lists : Nat → DeclaredType
  | 0 => named "Int" true
  | n + 1 => list (lists n) true

/-- More lists in each other than brackets may nest are a type with a name, whose text cannot be read. -/
theorem lists_not_read : isName (lists 51).innermostName = true ∧
    (TypeExpr.parse? (lists 51).render).map ofTypeExpr ≠ some (lists 51) := by
  have hname : isName (lists 51).innermostName = true := by decide
  refine ⟨hname, ?_⟩
  rw [parse?_render hname, if_neg (by decide)]
  exact (Option.some_ne_none _).symm

end DeclaredType

end EntityGraph
