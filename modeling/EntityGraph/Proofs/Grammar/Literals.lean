import EntityGraph.Grammar.Literal
import EntityGraph.Proofs.Grammar.Readers

/-!
# Values that are read back

A value that was read holds integers in 64 bits, names, and objects with their fields in the order of
their names, and no more values in each other than brackets may nest (`Value.Written`,
`Parser.valueWithin_written`). The literal of such a value without floats spells the lexemes of the
value, unless one of its strings has a character that is not legible in quotes (`Value.spells_render`),
and from the lexemes the value is read again (`Parser.valueWithin_lexemes`). Main statement:
`Value.parse?_render`.
-/

namespace EntityGraph.Grammar

namespace Value

/-! ## What a value holds -/

mutual

/-- The value and all values in it are as `p` says. -/
def all (p : Value → Bool) : Value → Bool
  | .list items => p (.list items) && allItems p items
  | .object fields => p (.object fields) && allFields p fields
  | v => p v

/-- The items of a list and all values in them are as `p` says. -/
def allItems (p : Value → Bool) : List Value → Bool
  | [] => true
  | v :: rest => v.all p && allItems p rest

/-- The fields of an object and all values in them are as `p` says. -/
def allFields (p : Value → Bool) : List (Name × Value) → Bool
  | [] => true
  | (_, v) :: rest => v.all p && allFields p rest

end

/-- There is no float in the value. -/
def isFloatless (v : Value) : Bool :=
  v.all fun
    | .float _ => false
    | _ => true

/-- All characters of all strings in the value are legible in quotes. -/
def isLegible (v : Value) : Bool :=
  v.all fun
    | .string s => s.toList.all Grammar.isLegible
    | _ => true

mutual

/-- The lexemes of the literal of a value. -/
def lexemes : Value → List Lexeme
  | .variable n => [.punct .dollar, .name n]
  | .int n => [.int n]
  | .float x => [.float x]
  | .string s => [.text s]
  | .boolean b => [.name (if b then "true" else "false")]
  | .null => [.name "null"]
  | .enum n => [.name n]
  | .list items => .punct .openBracket :: (itemLexemes items ++ [.punct .closeBracket])
  | .object fields => .punct .openBrace :: (fieldLexemes fields ++ [.punct .closeBrace])

/-- The lexemes of the items of a list. -/
def itemLexemes : List Value → List Lexeme
  | [] => []
  | v :: rest => v.lexemes ++ itemLexemes rest

/-- The lexemes of the fields of an object. -/
def fieldLexemes : List (Name × Value) → List Lexeme
  | [] => []
  | (name, v) :: rest => .name name :: .punct .colon :: v.lexemes ++ fieldLexemes rest

end

/-- What a value is when it is read with room for `room` brackets in each other. -/
inductive Written : (room : Nat) → Value → Prop where
  | var {room : Nat} {n : Name} (h : isName n = true) : Written room (.variable n)
  | int {room : Nat} {n : Int} (hmin : minInt ≤ n) (hmax : n ≤ maxInt) : Written room (.int n)
  | float {room : Nat} {x : Decimal.Binary64} : Written room (.float x)
  | string {room : Nat} {s : String} : Written room (.string s)
  | boolean {room : Nat} {b : Bool} : Written room (.boolean b)
  | null {room : Nat} : Written room .null
  | enum {room : Nat} {n : Name} (h : isName n = true) (hother : n ∉ ["true", "false", "null"]) :
      Written room (.enum n)
  | list {room : Nat} {items : List Value} (h : ∀ v ∈ items, Written room v) :
      Written (room + 1) (.list items)
  | object {room : Nat} {fields : List (Name × Value)} (hnames : ∀ f ∈ fields, isName f.1 = true)
      (hordered : fields.Pairwise (·.1 < ·.1)) (h : ∀ f ∈ fields, Written room f.2) :
      Written (room + 1) (.object fields)

variable {room : Nat} {v : Value} {items : List Value} {fields : List (Name × Value)}

/-- A value with room has more room. -/
theorem Written.mono (h : v.Written room) {room' : Nat} (hle : room ≤ room') : v.Written room' := by
  induction h generalizing room' with
  | var h => exact .var h
  | int hmin hmax => exact .int hmin hmax
  | float => exact .float
  | string => exact .string
  | boolean => exact .boolean
  | null => exact .null
  | enum h hother => exact .enum h hother
  | list _ ih =>
    obtain ⟨room', rfl⟩ : ∃ n, room' = n + 1 := ⟨room' - 1, by omega⟩
    exact .list fun v hv => ih v hv (Nat.le_of_succ_le_succ hle)
  | object hnames hordered _ ih =>
    obtain ⟨room', rfl⟩ : ∃ n, room' = n + 1 := ⟨room' - 1, by omega⟩
    exact .object hnames hordered fun f hf => ih f hf (Nat.le_of_succ_le_succ hle)

/-- What holds in all items of a list. -/
theorem allItems_eq (p : Value → Bool) (items : List Value) :
    allItems p items = items.all (·.all p) := by
  induction items with
  | nil => rfl
  | cons v rest ih => rw [allItems, List.all_cons, ih]

/-- What holds in all fields of an object. -/
theorem allFields_eq (p : Value → Bool) (fields : List (Name × Value)) :
    allFields p fields = fields.all (·.2.all p) := by
  induction fields with
  | nil => rfl
  | cons f rest ih => rw [allFields, List.all_cons, ih]

/-- There is no float in a list if there is none in its items. -/
theorem isFloatless_list : (Value.list items).isFloatless = items.all (·.isFloatless) := by
  rw [isFloatless, all, allItems_eq]
  rfl

/-- There is no float in an object if there is none in its fields. -/
theorem isFloatless_object : (Value.object fields).isFloatless = fields.all (·.2.isFloatless) := by
  rw [isFloatless, all, allFields_eq]
  rfl

/-- A list is legible if its items are. -/
theorem isLegible_list : (Value.list items).isLegible = items.all (·.isLegible) := by
  rw [isLegible, all, allItems_eq]
  rfl

/-- An object is legible if its fields are. -/
theorem isLegible_object : (Value.object fields).isLegible = fields.all (·.2.isLegible) := by
  rw [isLegible, all, allFields_eq]
  rfl

/-- The lexemes of a field of an object. -/
def oneFieldLexemes (f : Name × Value) : List Lexeme := .name f.1 :: .punct .colon :: f.2.lexemes

/-- The lexemes of the items of a list, one item after the other. -/
theorem itemLexemes_eq (items : List Value) : itemLexemes items = items.flatMap lexemes := by
  induction items with
  | nil => rfl
  | cons v rest ih => rw [itemLexemes, List.flatMap_cons, ih]

/-- The lexemes of the fields of an object, one field after the other. -/
theorem fieldLexemes_eq (fields : List (Name × Value)) :
    fieldLexemes fields = fields.flatMap oneFieldLexemes := by
  induction fields with
  | nil => rfl
  | cons f rest ih => rw [fieldLexemes, List.flatMap_cons, ih, oneFieldLexemes]

/-- The literals of the items of a list, one item after the other. -/
theorem renderItems_eq (items : List Value) : renderItems items = items.map render := by
  induction items with
  | nil => rfl
  | cons v rest ih => rw [renderItems, List.map_cons, ih]

/-- The literals of the fields of an object, one field after the other. -/
theorem renderFields_eq (fields : List (Name × Value)) :
    renderFields fields = fields.map fun f => f.1 ++ ": " ++ f.2.render := by
  induction fields with
  | nil => rfl
  | cons f rest ih => rw [renderFields, List.map_cons, ih]

/-! ## The literal of a value -/

section Legible

variable {cs cs' : List Char} {ok ok' : Bool} {ls ls' : List Lexeme} {c : Char} {p : Punctuator}

/-- A punctuator may stand before characters that are legible or not. -/
theorem spells_punct (hp : Punctuator.ofChar? c = some p)
    (h : Spells cs (if ok then some ls else none)) :
    Spells (c :: cs) (if ok then some (.punct p :: ls) else none) := by
  convert h.punct hp using 1
  cases ok <;> rfl

/-- Characters after each other are legible if both are. -/
theorem spells_append (h : Spells cs (if ok then some ls else none))
    (h' : Spells cs' (if ok' then some ls' else none))
    (hparted : ∀ rest, Parted rest → Parted (cs' ++ rest)) :
    Spells (cs ++ cs') (if ok && ok' then some (ls ++ ls') else none) := by
  convert h.append h' hparted using 1
  cases ok <;> cases ok' <;> rfl

/-- A closing punctuator may stand after characters that are legible or not. -/
theorem spells_close (h : Spells cs (if ok then some ls else none))
    (hp : Punctuator.ofChar? c = some p) (hc : endsNumber c = true) :
    Spells (cs ++ [c]) (if ok then some (ls ++ [.punct p]) else none) := by
  have hclose : Spells [c] (if true then some [.punct p] else none) := Spells.nil.punct hp
  have happend := spells_append h hclose fun _ _ => parted_cons hc
  rwa [Bool.and_true] at happend

/-- Texts with a comma and a space between them spell what they spell one after the other. -/
theorem spells_intercalate {α : Type} {as : List α} {text : α → List Char} {legible : α → Bool}
    {lexemes : α → List Lexeme}
    (h : ∀ a ∈ as, Spells (text a) (if legible a then some (lexemes a) else none)) :
    Spells ([',', ' '].intercalate (as.map text))
      (if as.all legible then some (as.flatMap lexemes) else none) := by
  induction as with
  | nil => exact .nil
  | cons a as ih =>
    have ha := h a (.head _)
    have has := ih fun x hx => h x (.tail _ hx)
    cases as with
    | nil => simpa using ha
    | cons b as =>
      rw [List.map_cons, List.map_cons, List.intercalate_cons_cons, List.append_assoc]
      exact spells_append ha ((has.skip (.inl rfl)).skip (.inr rfl)) fun _ _ => parted_cons rfl

end Legible

/-- The literal of a value without floats spells the lexemes of the value if the value is legible,
and otherwise it spells nothing. -/
theorem spells_render (h : v.Written room) (hfloat : v.isFloatless = true) :
    Spells v.render.toList (if v.isLegible then some v.lexemes else none) := by
  induction h with
  | var h =>
    rw [render, String.toList_append]
    exact .punct (p := .dollar) rfl (spells_name h)
  | int hmin hmax => exact spells_int hmin hmax
  | float => cases hfloat
  | string => exact spells_quote _
  | @boolean _ b => cases b <;> exact spells_name (by decide)
  | null => exact spells_name (by decide)
  | enum h => exact spells_name h
  | @list _ items _ ih =>
    rw [isFloatless_list, List.all_eq_true] at hfloat
    have hitems : Spells ([',', ' '].intercalate (items.map fun v => v.render.toList))
        (if items.all (·.isLegible) then some (items.flatMap lexemes) else none) :=
      spells_intercalate fun v hv => ih v hv (hfloat v hv)
    have hlist : (render (.list items)).toList =
        '[' :: ([',', ' '].intercalate (items.map fun v => v.render.toList) ++ [']']) := by
      simp [render, renderItems_eq, String.toList_intercalate, Function.comp_def]
    rw [hlist, isLegible_list, lexemes, itemLexemes_eq]
    exact spells_punct rfl (spells_close hitems rfl rfl)
  | @object _ fields hnames _ _ ih =>
    rw [isFloatless_object, List.all_eq_true] at hfloat
    have hfields : ∀ f ∈ fields, Spells (f.1.toList ++ ':' :: ' ' :: f.2.render.toList)
        (if f.2.isLegible then some (oneFieldLexemes f) else none) := by
      intro f hf
      have hname : Spells f.1.toList (if true then some [.name f.1] else none) :=
        spells_name (hnames f hf)
      have hvalue := spells_punct (c := ':') rfl ((ih f hf (hfloat f hf)).skip (.inl rfl))
      exact spells_append hname hvalue fun _ _ => parted_cons rfl
    have hobject : (render (.object fields)).toList = '\x7b' :: ([',', ' '].intercalate
        (fields.map fun f => f.1.toList ++ ':' :: ' ' :: f.2.render.toList) ++ ['\x7d']) := by
      simp [render, renderFields_eq, String.toList_intercalate, Function.comp_def]
    rw [hobject, isLegible_object, lexemes, fieldLexemes_eq]
    exact spells_punct rfl (spells_close (spells_intercalate hfields) rfl rfl)

/-- Lexemes of several parts leave as many brackets open as they find if each part does. -/
theorem nestAll_flatMap {α : Type} {as : List α} {ls : α → List Lexeme} {depth : Nat}
    (h : ∀ a ∈ as, nestAll depth (ls a) = some depth) :
    nestAll depth (as.flatMap ls) = some depth := by
  induction as with
  | nil => rfl
  | cons a as ih =>
    rw [List.flatMap_cons, nestAll_append, h a (.head _)]
    exact ih fun x hx => h x (.tail _ hx)

/-- The literal of a value leaves as many brackets open as it finds. -/
theorem nestAll_lexemes (h : v.Written room) {depth : Nat} (hroom : depth + room ≤ 50) :
    nestAll depth v.lexemes = some depth := by
  induction h generalizing depth with
  | @list room items _ ih =>
    have hopen : Lexeme.nest depth (.punct .openBracket) = some (depth + 1) := if_pos (by omega)
    have hitems : nestAll (depth + 1) (items.flatMap lexemes) = some (depth + 1) :=
      nestAll_flatMap fun v hv => ih v hv (by omega)
    rw [lexemes, itemLexemes_eq, nestAll_cons, hopen, Option.bind_some, nestAll_append, hitems]
    rfl
  | @object room fields _ _ _ ih =>
    have hopen : Lexeme.nest depth (.punct .openBrace) = some (depth + 1) := if_pos (by omega)
    have hfields : nestAll (depth + 1) (fields.flatMap oneFieldLexemes) = some (depth + 1) :=
      nestAll_flatMap fun f hf => ih f hf (by omega)
    rw [lexemes, fieldLexemes_eq, nestAll_cons, hopen, Option.bind_some, nestAll_append, hfields]
    rfl
  | _ => rfl

/-! ## The fields of an object -/

/-- A field is put after fields with smaller names. -/
theorem putField_of_lt {name : Name} (h : ∀ f ∈ fields, f.1 < name) (v : Value) :
    putField name v fields = fields ++ [(name, v)] := by
  induction fields with
  | nil => rfl
  | cons f rest ih =>
    have hlt := h f (.head _)
    have hne : name ≠ f.1 := fun heq => String.lt_irrefl name (heq ▸ hlt)
    rw [putField, if_neg (String.lt_asymm hlt), if_neg hne, ih fun x hx => h x (.tail _ hx)]
    rfl

/-- Fields in the order of their names are put one after the other. -/
theorem foldl_putField_of_ordered {before rest : List (Name × Value)}
    (h : (before ++ rest).Pairwise (·.1 < ·.1)) :
    rest.foldl (fun fs (n, v) => putField n v fs) before = before ++ rest := by
  induction rest generalizing before with
  | nil => exact (List.append_nil before).symm
  | cons f rest ih =>
    have hlt : ∀ g ∈ before, g.1 < f.1 := fun g hg =>
      (List.pairwise_append.1 h).2.2 g hg f (.head _)
    have hput : putField f.1 f.2 before = before ++ [f] := putField_of_lt hlt f.2
    have hsplit : before ++ f :: rest = before ++ [f] ++ rest := by simp
    rw [hsplit] at h ⊢
    change rest.foldl _ (putField f.1 f.2 before) = _
    rw [hput]
    exact ih h

/-- Fields in the order of their names are the fields of the object that is made of them. -/
theorem ofFields_of_ordered (h : fields.Pairwise (·.1 < ·.1)) : ofFields fields = .object fields := by
  rw [← List.nil_append fields] at h
  exact congrArg object (foldl_putField_of_ordered h)

/-- A field that is put among others is there with them. -/
theorem mem_putField {name : Name} {f : Name × Value} (h : f ∈ putField name v fields) :
    f = (name, v) ∨ f ∈ fields := by
  induction fields with
  | nil => exact .inl (List.mem_singleton.1 h)
  | cons g rest ih =>
    rw [putField] at h
    split at h
    · exact List.mem_cons.1 h
    split at h
    · exact (List.mem_cons.1 h).imp_right (.tail _)
    · rcases List.mem_cons.1 h with rfl | h
      · exact .inr (.head _)
      · exact (ih h).imp_right (.tail _)

/-- Fields stay in the order of their names when one is put among them. -/
theorem ordered_putField {name : Name} (h : fields.Pairwise (·.1 < ·.1)) :
    (putField name v fields).Pairwise (·.1 < ·.1) := by
  induction fields with
  | nil => exact List.pairwise_singleton _ _
  | cons g rest ih =>
    obtain ⟨hg, hrest⟩ := List.pairwise_cons.1 h
    rw [putField]
    split
    · next hlt =>
      refine List.pairwise_cons.2 ⟨List.forall_mem_cons.2 ⟨hlt, fun f hf => ?_⟩, h⟩
      exact String.lt_trans hlt (hg f hf)
    split
    · next heq =>
      subst heq
      exact List.pairwise_cons.2 ⟨hg, hrest⟩
    · next hnlt hne =>
      refine List.pairwise_cons.2 ⟨fun f hf => ?_, ih hrest⟩
      rcases mem_putField hf with rfl | hf
      · exact String.not_le.1 fun hle => hne (String.le_antisymm hle (String.not_lt.1 hnlt))
      · exact hg f hf

/-- Fields that are put one after the other are in the order of their names. -/
theorem foldl_putField_ordered {before as : List (Name × Value)}
    (h : before.Pairwise (·.1 < ·.1)) :
    (as.foldl (fun fs (n, v) => putField n v fs) before).Pairwise (·.1 < ·.1) := by
  induction as generalizing before with
  | nil => exact h
  | cons a as ih => exact ih (ordered_putField h)

/-- Fields that are put one after the other are all that is there. -/
theorem mem_foldl_putField {before as : List (Name × Value)} {f : Name × Value}
    (h : f ∈ as.foldl (fun fs (n, v) => putField n v fs) before) : f ∈ before ∨ f ∈ as := by
  induction as generalizing before with
  | nil => exact .inl h
  | cons a as ih =>
    rcases ih h with hf | hf
    · rcases mem_putField hf with rfl | hf
      · exact .inr (.head _)
      · exact .inl hf
    · exact .inr (.tail _ hf)

/-- An object that is made of fields is read if the fields are. -/
theorem Written.ofFields (hnames : ∀ f ∈ fields, isName f.1 = true)
    (h : ∀ f ∈ fields, Written room f.2) : Written (room + 1) (ofFields fields) := by
  have hmem : ∀ f ∈ fields.foldl (fun fs (n, v) => putField n v fs) [], f ∈ fields :=
    fun f hf => (mem_foldl_putField hf).resolve_left (by simp)
  exact .object (fun f hf => hnames f (hmem f hf)) (foldl_putField_ordered .nil)
    fun f hf => h f (hmem f hf)

end Value

/-! ## Reading values -/

namespace Parser

variable {room bound depth : Nat} {v : Value} {ts : List Token} {ls : List Lexeme}

/-- Tokens with the lexemes of items before a closing punctuator are read as the items. -/
theorem itemsWithin_lexemes {α : Type} {close : Punctuator} {item : Parser α} {as : List α}
    {lexemes : α → List Lexeme}
    (hitem : ∀ a ∈ as, ∀ ts ls, ts.map (·.lexeme) = lexemes a ++ ls →
      ∃ rest, item ts = some (a, rest) ∧ rest.map (·.lexeme) = ls)
    (hopen : ∀ a ∈ as, ∃ l ls, lexemes a = l :: ls ∧ l ≠ .punct close) (hbound : as.length < bound)
    (h : ts.map (·.lexeme) = as.flatMap lexemes ++ .punct close :: ls) :
    ∃ rest, itemsWithin close item bound ts = some (as, rest) ∧ rest.map (·.lexeme) = ls := by
  induction as generalizing bound ts with
  | nil =>
    obtain ⟨bound, rfl⟩ : ∃ n, bound = n + 1 := ⟨bound - 1, by simp at hbound; omega⟩
    obtain ⟨pos, rest, rfl, hrest⟩ := exists_of_map_cons h
    exact ⟨rest, bind_eq (skipPunct_self close pos rest), hrest⟩
  | cons a as ih =>
    obtain ⟨bound, rfl⟩ : ∃ n, bound = n + 1 := ⟨bound - 1, by simp at hbound; omega⟩
    rw [List.flatMap_cons, List.append_assoc] at h
    have hhead : ts.head?.map (·.lexeme) ≠ some (.punct close) := by
      obtain ⟨l, ls', hl, hne⟩ := hopen a (.head _)
      rw [hl] at h
      obtain ⟨pos, rest, rfl, -⟩ := exists_of_map_cons h
      simpa using hne
    obtain ⟨ts₁, ha, hts₁⟩ := hitem a (.head _) ts _ h
    obtain ⟨rest, has, hrest⟩ := ih (fun x hx => hitem x (.tail _ hx))
      (fun x hx => hopen x (.tail _ hx)) (Nat.lt_of_succ_lt_succ hbound) hts₁
    refine ⟨rest, ?_, hrest⟩
    rw [itemsWithin, bind_eq (skipPunct_other hhead)]
    exact (bind_eq ha).trans (bind_eq has)

/-- A value that is read is a value with room for the brackets that may still be opened. -/
theorem valueWithin_written {constant : Bool} :
    Keeps (Sound depth) (valueWithin constant bound) (Value.Written (50 - depth)) := by
  induction bound generalizing depth with
  | zero => exact .failure
  | succ bound ih =>
    have hbracket : ∀ {depth'}, (if depth < 50 then some (depth + 1) else none) = some depth' →
        depth' = depth + 1 ∧ 50 - depth = 50 - (depth + 1) + 1 := by
      intro depth' h
      obtain ⟨hlt, hsucc⟩ := Option.ite_none_right_eq_some.1 h
      cases hsucc
      exact ⟨rfl, by omega⟩
    refine next_leads fun l depth' hl hdepth => ?_
    split
    · cases hdepth
      exact .pure .boolean
    · cases hdepth
      exact .pure .boolean
    · cases hdepth
      exact .pure .null
    · next n htrue hfalse hnull =>
      cases hdepth
      exact .pure (.enum hl (by simp_all))
    · cases hdepth
      exact .pure (.int hl.1 hl.2)
    · cases hdepth
      exact .pure .float
    · cases hdepth
      exact .pure .string
    · cases hdepth
      split
      · exact .failure
      · exact name_sound.bind fun n hn => .pure (.var hn)
    · obtain ⟨rfl, hroom⟩ := hbracket hdepth
      rw [hroom]
      exact (items_sound rfl ih).bind fun items hitems => .pure (.list hitems)
    · obtain ⟨rfl, hroom⟩ := hbracket hdepth
      rw [hroom]
      refine (items_sound (P := fun f => isName f.1 = true ∧ Value.Written (50 - (depth + 1)) f.2)
        rfl ?_).bind fun fields hfields => .pure (.ofFields (fun f hf => (hfields f hf).1)
          fun f hf => (hfields f hf).2)
      exact name_sound.bind fun n hn => (punct_sound rfl).bind fun _ _ => ih.bind fun v hv =>
        .pure ⟨hn, hv⟩
    · exact .failure

/-- A value starts with a token that closes nothing. -/
theorem lexemes_eq_cons (v : Value) : ∃ l ls, v.lexemes = l :: ls ∧
    ∀ p ∈ [Punctuator.closeBracket, .closeBrace], l ≠ .punct p := by
  cases v with
  | list items => exact ⟨_, _, rfl, by simp⟩
  | object fields => exact ⟨_, _, rfl, by simp⟩
  | _ => exact ⟨_, _, rfl, by simp⟩

/-- There are at least as many lexemes as there are parts. -/
theorem length_le_flatMap {α : Type} {as : List α} {lexemes : α → List Lexeme}
    (h : ∀ a ∈ as, lexemes a ≠ []) : as.length ≤ (as.flatMap lexemes).length := by
  induction as with
  | nil => exact Nat.le_refl _
  | cons a as ih =>
    have ha := List.length_pos_iff.2 (h a (.head _))
    have has := ih fun x hx => h x (.tail _ hx)
    rw [List.flatMap_cons, List.length_append, List.length_cons]
    omega

/-- Each part has no more lexemes than all parts. -/
theorem length_le_of_mem {α : Type} {as : List α} (lexemes : α → List Lexeme) {a : α}
    (h : a ∈ as) : (lexemes a).length ≤ (as.flatMap lexemes).length := by
  obtain ⟨before, after, rfl⟩ := List.append_of_mem h
  rw [List.flatMap_append, List.flatMap_cons, List.length_append, List.length_append]
  omega

/-- What bounds the lexemes of a value is not zero. -/
theorem exists_of_lexemes_le (h : v.lexemes.length ≤ bound) : ∃ n, bound = n + 1 := by
  obtain ⟨l, ls, hl, -⟩ := lexemes_eq_cons v
  rw [hl, List.length_cons] at h
  exact Nat.exists_eq_succ_of_ne_zero (by omega)

/-- Tokens with the lexemes of items before a closing punctuator are read as the items, however many
they are. -/
theorem items_lexemes {α : Type} {close : Punctuator} {item : Parser α} {as : List α}
    {lexemes : α → List Lexeme}
    (hitem : ∀ a ∈ as, ∀ ts ls, ts.map (·.lexeme) = lexemes a ++ ls →
      ∃ rest, item ts = some (a, rest) ∧ rest.map (·.lexeme) = ls)
    (hopen : ∀ a ∈ as, ∃ l ls, lexemes a = l :: ls ∧ l ≠ .punct close)
    (h : ts.map (·.lexeme) = as.flatMap lexemes ++ .punct close :: ls) :
    ∃ rest, items close item ts = some (as, rest) ∧ rest.map (·.lexeme) = ls := by
  have hle : as.length ≤ (as.flatMap lexemes).length := length_le_flatMap fun a ha hnil => by
    obtain ⟨l, ls, hl, -⟩ := hopen a ha
    rw [hl] at hnil
    cases hnil
  have hlength := congrArg List.length h
  rw [List.length_map, List.length_append, List.length_cons] at hlength
  exact itemsWithin_lexemes hitem hopen (by omega) h

/-- A name that is no keyword is read as an enum value. -/
theorem valueWithin_name {n : Name} {pos : Pos} (h : n ∉ ["true", "false", "null"]) :
    valueWithin false (bound + 1) (⟨pos, .name n⟩ :: ts) = some (.enum n, ts) := by
  simp only [List.mem_cons, List.not_mem_nil, or_false, not_or] at h
  obtain ⟨htrue, hfalse, hnull⟩ := h
  rw [valueWithin, bind_eq (a := .name n) rfl]
  generalize hl : Lexeme.name n = l
  split
  · exact absurd (Lexeme.name.inj hl) htrue
  · exact absurd (Lexeme.name.inj hl) hfalse
  · exact absurd (Lexeme.name.inj hl) hnull
  · cases hl
    rfl
  all_goals cases hl

/-- A field of an object is read from its lexemes. -/
theorem field_lexemes {constant : Bool} {f : Name × Value}
    (hvalue : ∀ ts ls, ts.map (·.lexeme) = f.2.lexemes ++ ls →
      ∃ rest, valueWithin constant bound ts = some (f.2, rest) ∧ rest.map (·.lexeme) = ls)
    (hts : ts.map (·.lexeme) = Value.oneFieldLexemes f ++ ls) :
    ∃ rest, (do let n ← name; punct .colon; return (n, ← valueWithin constant bound) :
      Parser (Name × Value)) ts = some (f, rest) ∧ rest.map (·.lexeme) = ls := by
  obtain ⟨pos, ts₁, rfl, hts₁⟩ := exists_of_map_cons hts
  obtain ⟨pos', ts₂, rfl, hts₂⟩ := exists_of_map_cons hts₁
  obtain ⟨rest, hread, hrest⟩ := hvalue ts₂ ls hts₂
  refine ⟨rest, ?_, hrest⟩
  rw [bind_eq (a := f.1) rfl, bind_eq (a := ()) rfl]
  exact bind_eq hread

/-- Tokens with the lexemes of a value are read as the value. -/
theorem valueWithin_lexemes (h : v.Written room) (hbound : v.lexemes.length ≤ bound)
    (hts : ts.map (·.lexeme) = v.lexemes ++ ls) :
    ∃ rest, valueWithin false bound ts = some (v, rest) ∧ rest.map (·.lexeme) = ls := by
  induction h generalizing bound ts ls with
  | var h =>
    obtain ⟨bound, rfl⟩ := exists_of_lexemes_le hbound
    obtain ⟨pos, ts₁, rfl, hts₁⟩ := exists_of_map_cons hts
    obtain ⟨pos', rest, rfl, hrest⟩ := exists_of_map_cons hts₁
    exact ⟨rest, rfl, hrest⟩
  | int | float | string | null =>
    obtain ⟨bound, rfl⟩ := exists_of_lexemes_le hbound
    obtain ⟨pos, rest, rfl, hrest⟩ := exists_of_map_cons hts
    exact ⟨rest, rfl, hrest⟩
  | @boolean _ b =>
    obtain ⟨bound, rfl⟩ := exists_of_lexemes_le hbound
    obtain ⟨pos, rest, rfl, hrest⟩ := exists_of_map_cons hts
    cases b <;> exact ⟨rest, rfl, hrest⟩
  | enum h hother =>
    obtain ⟨bound, rfl⟩ := exists_of_lexemes_le hbound
    obtain ⟨pos, rest, rfl, hrest⟩ := exists_of_map_cons hts
    exact ⟨rest, valueWithin_name hother, hrest⟩
  | @list _ items h ih =>
    obtain ⟨bound, rfl⟩ := exists_of_lexemes_le hbound
    rw [Value.lexemes, Value.itemLexemes_eq] at hbound hts
    rw [List.cons_append, List.append_assoc] at hts
    obtain ⟨pos, ts₁, rfl, hts₁⟩ := exists_of_map_cons hts
    have hitem : ∀ v ∈ items, ∀ ts ls, ts.map (·.lexeme) = v.lexemes ++ ls →
        ∃ rest, valueWithin false bound ts = some (v, rest) ∧ rest.map (·.lexeme) = ls := by
      intro v hv ts ls hts
      have hle := length_le_of_mem Value.lexemes hv
      simp only [List.length_cons, List.length_append] at hbound
      exact ih v hv (by omega) hts
    have hopen : ∀ v ∈ items, ∃ l ls, v.lexemes = l :: ls ∧ l ≠ .punct .closeBracket := by
      intro v _
      obtain ⟨l, ls, hl, hne⟩ := lexemes_eq_cons v
      exact ⟨l, ls, hl, hne _ (by simp)⟩
    obtain ⟨rest, hread, hrest⟩ := items_lexemes hitem hopen hts₁
    refine ⟨rest, ?_, hrest⟩
    rw [valueWithin, bind_eq (a := .punct .openBracket) rfl]
    exact bind_eq hread
  | @object _ fields hnames hordered h ih =>
    obtain ⟨bound, rfl⟩ := exists_of_lexemes_le hbound
    rw [Value.lexemes, Value.fieldLexemes_eq] at hbound hts
    rw [List.cons_append, List.append_assoc] at hts
    obtain ⟨pos, ts₁, rfl, hts₁⟩ := exists_of_map_cons hts
    have hfield : ∀ f ∈ fields, ∀ ts ls, ts.map (·.lexeme) = Value.oneFieldLexemes f ++ ls →
        ∃ rest, (do let n ← name; punct .colon; return (n, ← valueWithin false bound) :
          Parser (Name × Value)) ts = some (f, rest) ∧ rest.map (·.lexeme) = ls := by
      intro f hf ts ls hts
      have hle := length_le_of_mem Value.oneFieldLexemes hf
      simp only [Value.oneFieldLexemes, List.length_cons, List.length_append] at hbound hle
      exact field_lexemes (fun ts ls hts => ih f hf (by omega) hts) hts
    obtain ⟨rest, hread, hrest⟩ := items_lexemes hfield (fun f _ => ⟨_, _, rfl, by simp⟩) hts₁
    refine ⟨rest, ?_, hrest⟩
    rw [valueWithin, bind_eq (a := .punct .openBrace) rfl, ← Value.ofFields_of_ordered hordered]
    exact bind_eq hread

end Parser

namespace Value

variable {v : Value}

/-- The literal of a value without floats is read as the value if the value is legible, and otherwise
it cannot be read. -/
theorem parse?_render (h : v.Written 50) (hfloat : v.isFloatless = true) :
    Value.parse? v.render = if v.isLegible then some v else none := by
  have hspells := spells_render h hfloat 0 [] (by simp [Parted])
  rw [List.append_nil] at hspells
  split at hspells
  · next hlegible =>
    rw [Option.bind_some, nestAll_lexemes h (by decide), Option.bind_some] at hspells
    have hlexemes : lexemes? 0 v.render.toList = some (v.lexemes ++ []) := hspells
    rw [if_pos hlegible]
    refine Parser.parse?_eq_some hlexemes fun ts hts => ?_
    have hbound : v.lexemes.length ≤ ts.length := by
      have hlength := congrArg List.length hts
      simp only [List.length_map, List.append_nil] at hlength
      omega
    exact Parser.valueWithin_lexemes h hbound hts
  · next hlegible =>
    rw [if_neg hlegible]
    exact Parser.parse?_eq_none hspells

end Value

end EntityGraph.Grammar
