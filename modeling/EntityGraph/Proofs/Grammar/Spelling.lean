import EntityGraph.Proofs.Grammar.Lexemes
import EntityGraph.Text

/-!
# Words that are read back

Which lexeme a written name, integer or quoted text spells. A name and an integer in 64 bits spell
themselves (`spells_name`, `spells_int`). A quoted text spells itself if all its characters can be
read (`isLegible`), and otherwise it spells nothing: a quoted text writes a character without a
glyph as the hexadecimal digits of its code point in braces, or the character zero as a digit, and
neither is an escape of a string literal (`spells_quote`).
-/

namespace EntityGraph.Grammar

variable {c : Char} {cs rest : List Char}

/-! ## Names -/

/-- A class of characters that holds none of those that end numbers. -/
theorem eq_false_of_endsNumber {p : Char → Bool}
    (hp : [' ', '\n', '\r', '\t', ',', '#', '!', '$', ':', '=', '@', '|', '&', '(', ')', '[', ']',
      '\x7b', '\x7d'].all (!p ·) = true) (h : endsNumber c = true) : p c = false := by
  rw [List.all_eq_true] at hp
  simpa using hp c (by simpa [endsNumber] using h)

/-- A name does not go on with a character that ends numbers. -/
theorem not_isNameRest_of_endsNumber (h : endsNumber c = true) : isNameRest c = false :=
  eq_false_of_endsNumber (by decide) h

/-- Characters of a class before one of another class are what the class takes off the text. -/
theorem span_append {p : Char → Bool} (hcs : ∀ c ∈ cs, p c = true)
    (hrest : ∀ c ∈ rest.head?, p c = false) : (cs ++ rest).span p = (cs, rest) := by
  rw [List.span_eq_takeWhile_dropWhile, List.takeWhile_append_of_pos hcs,
    List.dropWhile_append_of_pos hcs]
  cases rest with
  | nil => simp
  | cons c rest => simp [hrest c rfl]

/-- A class of characters without separators, dots and quotes is a class of first characters of tokens,
of which the class alone tells what they are. -/
theorem startsToken_of_class {p : Char → Bool}
    (hp : [' ', ',', '\t', '\n', '\r', '\ufeff', '#', '.', '"'].all (!p ·) = true)
    (hc : p c = true) : startsToken c = true ∧ c ≠ '.' ∧ c ≠ '"' := by
  rw [List.all_eq_true] at hp
  have hne : ∀ x ∈ [' ', ',', '\t', '\n', '\r', '\ufeff', '#', '.', '"'], c ≠ x := by
    rintro x hx rfl
    have hnot := hp c hx
    rw [hc] at hnot
    cases hnot
  simp only [List.forall_mem_cons] at hne
  obtain ⟨h₁, h₂, h₃, h₄, h₅, h₆, h₇, hdot, hquote, -⟩ := hne
  exact ⟨by simp [startsToken, h₁, h₂, h₃, h₄, h₅, h₆, h₇], hdot, hquote⟩

/-- A name spells itself. -/
theorem spells_name {n : Name} (h : isName n = true) : Spells n.toList (some [.name n]) := by
  unfold isName at h
  split at h
  · cases h
  · next c cs hcs =>
    rw [Bool.and_eq_true, List.all_eq_true] at h
    obtain ⟨hstart, hdot, hquote⟩ := startsToken_of_class (p := isNameStart) (by decide) h.1
    rw [hcs]
    refine .single (o := some (.name n)) hstart fun rest hrest => ?_
    have hspan : (c :: cs ++ rest).span isNameRest = (c :: cs, rest) :=
      span_append (List.forall_mem_cons.2 ⟨isNameRest_of_isNameStart h.1, h.2⟩)
        fun x hx => not_isNameRest_of_endsNumber (hrest x hx)
    rw [List.cons_append] at hspan ⊢
    rw [lexeme?, if_pos h.1, hspan]
    · simp [← hcs]
    all_goals simp [hdot, hquote]

/-! ## Integers -/

/-- The digits of a number have its value. -/
theorem digitsValue_toDigits (n : Nat) : digitsValue (Nat.toDigits 10 n) = n :=
  Nat.ofDigitChars_ten_toDigits

/-- The digits of a positive number do not start with a zero. -/
theorem head?_toDigits {n : Nat} (h : 0 < n) : (Nat.toDigits 10 n).head? ≠ some '0' := by
  induction n using Nat.strongRecOn with
  | ind n ih =>
    rw [Nat.toDigits_eq_if (by decide)]
    split
    · next hlt =>
      have hall : ∀ d < 10, 0 < d → Nat.digitChar d ≠ '0' := by decide
      simpa using hall n hlt h
    · have hhead : (Nat.toDigits 10 (n / 10)).head? ≠ some '0' := ih (n / 10) (by omega) (by omega)
      rw [List.head?_append, Option.or_of_isSome]
      · exact hhead
      · simp [Nat.toDigits_ne_nil]

/-- The digits of a number are digits, and nothing is left of them. -/
theorem digits?_toDigits (n : Nat) :
    digits? (Nat.toDigits 10 n) = some (Nat.toDigits 10 n, []) := by
  have hspan : (Nat.toDigits 10 n ++ []).span Char.isDigit = (Nat.toDigits 10 n, []) :=
    span_append (fun c hc => Nat.isDigit_of_mem_toDigits (by decide) (by decide) hc) (by simp)
  rw [List.append_nil] at hspan
  rw [digits?, hspan]
  cases hn : Nat.toDigits 10 n with
  | nil => exact absurd hn Nat.toDigits_ne_nil
  | cons d ds => rfl

/-- The digits of a number are a whole part, and nothing is left of them. -/
theorem wholePart?_toDigits (n : Nat) :
    wholePart? (Nat.toDigits 10 n) = some (Nat.toDigits 10 n, []) := by
  rcases Nat.eq_zero_or_pos n with rfl | hn
  · rfl
  · have hhead := head?_toDigits hn
    unfold wholePart?
    split
    · next heq => simp [heq] at hhead
    · exact digits?_toDigits n

/-- The digits of a number, with or without a minus before them, spell an integer if it is in 64
bits. -/
theorem unsigned?_toDigits {negative : Bool} {m : Nat} {n : Int}
    (hn : n = if negative then -(m : Int) else m) (hmin : minInt ≤ n) (hmax : n ≤ maxInt) :
    unsigned? negative (Nat.toDigits 10 m) = some (.int n) := by
  simp only [unsigned?, wholePart?_toDigits, Option.bind_eq_bind, Option.bind_some, fraction?,
    exponent?, digitsValue_toDigits, ← hn, hmin, hmax, and_self, if_true]

/-- The text of an integer is the digits of its size, after a minus if it is negative. -/
theorem toList_toString (n : Int) : (toString n).toList =
    if 0 ≤ n then Nat.toDigits 10 n.toNat else '-' :: Nat.toDigits 10 (-n).toNat := by
  rw [Int.toString_eq_repr, Int.repr_eq_if]
  split <;> simp [Nat.repr_eq_ofList_toDigits]

/-- The text of an integer in 64 bits is read as the integer. -/
theorem number?_toString {n : Int} (hmin : minInt ≤ n) (hmax : n ≤ maxInt) :
    number? (toString n).toList = some (.int n) := by
  rw [toList_toString]
  split
  · next hn =>
    have hminus : ∀ rest, Nat.toDigits 10 n.toNat ≠ '-' :: rest := by
      intro rest heq
      have hdigit : '-'.isDigit = true :=
        Nat.isDigit_of_mem_toDigits (by decide) (by decide) (heq ▸ List.mem_cons_self)
      cases hdigit
    rw [number?]
    · exact unsigned?_toDigits (by simp; omega) hmin hmax
    · exact hminus
  · next hn =>
    exact unsigned?_toDigits (by simp; omega) hmin hmax

/-- A character of a number without a fraction. -/
def isIntegral (c : Char) : Bool := c.isDigit || c = '-'

/-- The text of an integer is made of digits and a minus. -/
theorem isIntegral_of_mem_toString {n : Int} (hc : c ∈ (toString n).toList) :
    isIntegral c = true := by
  have hdigit : ∀ m, c ∈ Nat.toDigits 10 m → isIntegral c = true := fun m hm => by
    rw [isIntegral, Nat.isDigit_of_mem_toDigits (by decide) (by decide) hm]
    rfl
  rw [toList_toString] at hc
  split at hc
  · exact hdigit _ hc
  · rcases List.mem_cons.1 hc with rfl | hc
    · rfl
    · exact hdigit _ hc

/-- A number does not end at its own characters. -/
theorem not_endsNumber_of_isIntegral (h : isIntegral c = true) : endsNumber c = false := by
  by_contra hends
  rw [Bool.not_eq_false] at hends
  have hnot : isIntegral c = false := eq_false_of_endsNumber (by decide) hends
  rw [h] at hnot
  cases hnot

/-- A digit is no letter. -/
theorem not_isAlpha_of_isDigit (h : c.isDigit = true) : ¬ c.isAlpha = true := by
  intro halpha
  have hdigit : (decide (c.val ≥ '0'.val) && decide (c.val ≤ '9'.val)) = true := h
  have hletter : (decide (c.val ≥ 'A'.val ∧ c.val ≤ 'Z'.val) ||
      decide (c.val ≥ 'a'.val) && decide (c.val ≤ 'z'.val)) = true := halpha
  simp only [Bool.or_eq_true, Bool.and_eq_true, decide_eq_true_eq] at hdigit hletter
  grind

/-- A name does not start with a digit or a minus. -/
theorem not_isNameStart_of_isIntegral (h : isIntegral c = true) : ¬ isNameStart c = true := by
  rw [isIntegral, Bool.or_eq_true, decide_eq_true_eq] at h
  rcases h with hdigit | rfl
  · rw [isNameStart, Bool.or_eq_true, decide_eq_true_eq]
    rintro (halpha | rfl)
    · exact not_isAlpha_of_isDigit hdigit halpha
    · cases hdigit
  · decide

/-- An integer in 64 bits spells itself. -/
theorem spells_int {n : Int} (hmin : minInt ≤ n) (hmax : n ≤ maxInt) :
    Spells (toString n).toList (some [.int n]) := by
  have hnumber := number?_toString hmin hmax
  have hintegral : ∀ c ∈ (toString n).toList, isIntegral c = true :=
    fun c hc => isIntegral_of_mem_toString hc
  cases hn : (toString n).toList with
  | nil => rw [hn] at hnumber; cases hnumber
  | cons c cs =>
    rw [hn] at hnumber hintegral
    have hc := hintegral c (.head _)
    obtain ⟨hstart, hdot, hquote⟩ := startsToken_of_class (p := isIntegral) (by decide) hc
    refine .single (o := some (.int n)) hstart fun rest hrest => ?_
    have hspan : (cs ++ rest).span (fun c => !endsNumber c) = (cs, rest) :=
      span_append (fun x hx => by simp [not_endsNumber_of_isIntegral (hintegral x (.tail _ hx))])
        fun x hx => by simp [hrest x hx]
    rw [List.cons_append, lexeme?, if_neg (not_isNameStart_of_isIntegral hc), if_pos, hspan]
    · simp [hnumber]
    · simpa [isIntegral] using hc
    all_goals simp [hdot, hquote]

/-! ## Quoted texts -/

/-- A quoted text shows the character in a way in which a string literal can show it. -/
def isLegible (c : Char) : Bool :=
  c = '\t' || c = '\n' || c = '\r' || !Text.isUnprintable c

/-- What a quoted character is: two characters of which the first is a backslash, an escape in
braces, or the character itself. -/
theorem escape_cases (c : Char) :
    (∃ x, Text.escape c = ['\\', x] ∧ x ≠ '\n' ∧ x ≠ 'u' ∧
      simpleEscape? x = if isLegible c then some c else none) ∨
    (isLegible c = false ∧
      Text.escape c = '\\' :: 'u' :: '\x7b' :: (Text.hexDigits c.toNat ++ ['\x7d'])) ∨
    (isLegible c = true ∧ Text.escape c = [c] ∧ c ≠ '"' ∧ c ≠ '\\' ∧ c ≠ '\n') := by
  unfold Text.escape
  split
  · next h => subst h; exact .inl ⟨'"', rfl, by decide, by decide, by decide +kernel⟩
  split
  · next h => subst h; exact .inl ⟨'\\', rfl, by decide, by decide, by decide +kernel⟩
  split
  · next h => subst h; exact .inl ⟨'t', rfl, by decide, by decide, by decide +kernel⟩
  split
  · next h => subst h; exact .inl ⟨'n', rfl, by decide, by decide, by decide +kernel⟩
  split
  · next h => subst h; exact .inl ⟨'r', rfl, by decide, by decide, by decide +kernel⟩
  split
  · next h => subst h; exact .inl ⟨'0', rfl, by decide, by decide, by decide +kernel⟩
  split
  · next hunprintable =>
    refine .inr (.inl ⟨?_, rfl⟩)
    simp_all [isLegible]
  · next hquote hbackslash _ hnewline _ _ hprintable =>
    refine .inr (.inr ⟨?_, rfl, hquote, hbackslash, hnewline⟩)
    simp_all [isLegible]

/-- The character has no meaning of its own in a string literal. -/
def isPlain (c : Char) : Bool := c ≠ '"' && c ≠ '\\' && c ≠ '\n'

/-- Plain characters belong to a string body. -/
theorem stringBody?_plain (hcs : ∀ c ∈ cs, isPlain c = true) :
    stringBody? (cs ++ rest) = (stringBody? rest).map fun (body, rest) => (cs ++ body, rest) := by
  induction cs with
  | nil => simp
  | cons c cs ih =>
    have hc := hcs c (.head _)
    simp only [isPlain, Bool.and_eq_true, decide_eq_true_eq] at hc
    obtain ⟨⟨hquote, hbackslash⟩, hnewline⟩ := hc
    rw [List.cons_append, stringBody?, ih fun x hx => hcs x (.tail _ hx), Option.map_map]
    · rfl
    all_goals simp [hquote, hbackslash, hnewline]

/-- Hexadecimal digits are plain. -/
theorem isPlain_of_mem_hexDigits {n : Nat} (hc : c ∈ Text.hexDigits n) : isPlain c = true := by
  have hdigit : ∀ d < 16, isPlain (Nat.digitChar d) = true := by decide
  unfold Text.hexDigits at hc
  induction n using Nat.strongRecOn with
  | ind n ih =>
    rw [Nat.toDigits_eq_if (by decide)] at hc
    split at hc
    · next hlt => exact List.mem_singleton.1 hc ▸ hdigit n hlt
    · rcases List.mem_append.1 hc with hc | hc
      · exact ih (n / 16) (by omega) hc
      · exact List.mem_singleton.1 hc ▸ hdigit (n % 16) (Nat.mod_lt _ (by decide))

/-- A quoted character belongs to a string body. -/
theorem stringBody?_escape : stringBody? (Text.escape c ++ rest) =
    (stringBody? rest).map fun (body, rest) => (Text.escape c ++ body, rest) := by
  rcases escape_cases c with ⟨x, hx, hnewline, -, -⟩ | ⟨-, hx⟩ | ⟨-, hx, hquote, hbackslash, hnewline⟩
  · rw [hx]
    simp [stringBody?, hnewline]
  · have hplain : ∀ y ∈ '\x7b' :: (Text.hexDigits c.toNat ++ ['\x7d']), isPlain y = true := by
      simp only [List.forall_mem_cons, List.forall_mem_append]
      exact ⟨by decide, fun y hy => isPlain_of_mem_hexDigits hy, by decide, by simp⟩
    rw [hx, List.cons_append, List.cons_append, stringBody?, if_neg (by decide),
      stringBody?_plain hplain, Option.map_map]
    rfl
  · rw [hx]
    exact stringBody?_plain (by simp [isPlain, hquote, hbackslash, hnewline])

/-- The quoted characters of a text are the body of a string. -/
theorem stringBody?_quoted :
    stringBody? (cs.flatMap Text.escape ++ '"' :: rest) = some (cs.flatMap Text.escape, rest) := by
  induction cs with
  | nil => rfl
  | cons c cs ih =>
    rw [List.flatMap_cons, List.append_assoc, stringBody?_escape, ih]
    rfl

/-- An escape in braces is no escape of a string literal. -/
theorem unescape?_brace : unescape? ('\\' :: 'u' :: '\x7b' :: cs) = none := by
  match cs with
  | [] | [_] | [_, _] => rfl
  | _ :: _ :: _ :: _ => rfl

/-- A quoted character denotes itself if it is legible, and else nothing. -/
theorem unescape?_escape : unescape? (Text.escape c ++ cs) =
    if isLegible c then (unescape? cs).map (c :: ·) else none := by
  rcases escape_cases c with ⟨x, hx, -, hu, hsimple⟩ | ⟨hc, hx⟩ | ⟨hc, hx, -, hbackslash, -⟩
  · rw [hx, List.cons_append, List.cons_append, List.nil_append, unescape?, hsimple]
    · cases isLegible c
      · rfl
      · cases unescape? cs <;> rfl
    · simp [hu]
  · rw [hx, hc, List.cons_append, List.cons_append, List.cons_append, unescape?_brace]
    rfl
  · rw [hx, hc, List.cons_append, List.nil_append, unescape?]
    · rfl
    all_goals simp [hbackslash]

/-- Quoted characters denote themselves if they are all legible, and else nothing. -/
theorem unescape?_quoted : unescape? (cs.flatMap Text.escape) =
    if cs.all isLegible then some cs else none := by
  induction cs with
  | nil => rfl
  | cons c cs ih =>
    rw [List.flatMap_cons, unescape?_escape, ih, List.all_cons]
    cases isLegible c <;> cases cs.all isLegible <;> rfl

/-- A quoted text that is parted from what follows is no block string. -/
theorem not_block (hrest : Parted rest) (tail : List Char) :
    cs.flatMap Text.escape ++ '"' :: rest ≠ '"' :: '"' :: tail := by
  intro h
  cases cs with
  | nil =>
    have hhead : endsNumber '"' = true := hrest '"' (by simp_all)
    revert hhead
    decide
  | cons c cs =>
    rcases escape_cases c with ⟨x, hx, -⟩ | ⟨-, hx⟩ | ⟨-, hx, hquote, -⟩
    · simp [hx] at h
    · simp [hx] at h
    · simp [hx, hquote] at h

/-- A quoted text spells itself if its characters are all legible, and else it spells nothing. -/
theorem spells_quote (s : String) : Spells (Text.quote s).toList
    (if s.toList.all isLegible then some [.text s] else none) := by
  have hlist : (Text.quote s).toList = '"' :: (s.toList.flatMap Text.escape ++ ['"']) := by
    simp [Text.quote]
  have hif : (if s.toList.all isLegible then some [Lexeme.text s] else none) =
      (if s.toList.all isLegible then some (Lexeme.text s) else none).map ([·]) := by
    split <;> rfl
  rw [hlist, hif]
  refine .single (by decide) fun rest hrest => ?_
  have happend : '"' :: (s.toList.flatMap Text.escape ++ ['"']) ++ rest =
      '"' :: (s.toList.flatMap Text.escape ++ '"' :: rest) := by simp
  rw [happend, lexeme?]
  · simp only [stringBody?_quoted, unescape?_quoted, Option.bind_eq_bind, Option.bind_some]
    split <;> simp
  · exact fun tail => not_block hrest tail

end EntityGraph.Grammar
