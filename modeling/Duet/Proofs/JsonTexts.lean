import Duet.Proofs.LexerParts
import Duet.Text.Json

/-!
# The texts of a JSON value

A JSON value has many texts: blanks may stand before every token, and a character of a string may
be written as it is or by one of several escapes. `Spells` lists them, rule by rule, after the
grammar of JSON; of the numbers it has the natural ones, as `Json` does.

`decode?` finds the value of a text. It reads one token after the other and never goes back, and it
accepts exactly the texts of the grammar (`decode?_eq_some_iff`); hence no text has two values. Two
things have to be shown for this. A text is read as the grammar has it, whatever follows
(`Spells.reads`), which would fail of a number with a digit behind it; and nothing else is read
(`spells_of_reads`).
-/

namespace Duet.Json

/-! ## The grammar -/

/-- The characters that may stand before a token. -/
def isBlank (c : Char) : Bool :=
  c = ' ' || c = '\t' || c = '\n' || c = '\r'

/-- Nothing but blanks. -/
def Blank (w : List Char) : Prop :=
  ∀ c ∈ w, isBlank c = true

/-- The value of a digit of base sixteen, in lower or upper case. -/
def hexValue? (c : Char) : Option Nat :=
  if c.isDigit then some (c.toNat - '0'.toNat)
  else if 'a' ≤ c ∧ c ≤ 'f' then some (c.toNat - 'a'.toNat + 10)
  else if 'A' ≤ c ∧ c ≤ 'F' then some (c.toNat - 'A'.toNat + 10)
  else none

/-- Four digits of base sixteen and their number. -/
inductive IsUnit : Nat → List Char → Prop
  | mk {a b c d : Char} {p q r s : Nat} : hexValue? a = some p → hexValue? b = some q →
      hexValue? c = some r → hexValue? d = some s →
      IsUnit (((p * 16 + q) * 16 + r) * 16 + s) [a, b, c, d]

/-- The characters that have an escape of one letter, by this letter. -/
def shortEscapes : List (Char × Char) :=
  [('"', '"'), ('\\', '\\'), ('/', '/'), ('b', '\x08'), ('f', '\x0c'), ('n', '\n'), ('r', '\r'),
    ('t', '\t')]

/-- The first unit of a character beyond U+FFFF. -/
def IsHigh (n : Nat) : Prop := 0xd800 ≤ n ∧ n < 0xdc00

/-- The second unit of a character beyond U+FFFF. -/
def IsLow (n : Nat) : Prop := 0xdc00 ≤ n ∧ n < 0xe000

instance (n : Nat) : Decidable (IsHigh n) := inferInstanceAs (Decidable (_ ∧ _))
instance (n : Nat) : Decidable (IsLow n) := inferInstanceAs (Decidable (_ ∧ _))

/-- The character of two units. -/
def ofPair (high low : Nat) : Char :=
  Char.ofNat (0x10000 + (high - 0xd800) * 0x400 + (low - 0xdc00))

/-- The ways to write a character in a string. -/
inductive SpellsChar : Char → List Char → Prop
  | plain {c : Char} : c ≠ '"' → c ≠ '\\' → 0x20 ≤ c.toNat → SpellsChar c [c]
  | short {c e : Char} : shortEscapes.lookup e = some c → SpellsChar c ['\\', e]
  | unit {n : Nat} {t : List Char} : IsUnit n t → ¬IsHigh n → ¬IsLow n →
      SpellsChar (Char.ofNat n) ('\\' :: 'u' :: t)
  | pair {n m : Nat} {t u : List Char} : IsUnit n t → IsUnit m u → IsHigh n → IsLow m →
      SpellsChar (ofPair n m) ('\\' :: 'u' :: (t ++ '\\' :: 'u' :: u))

/-- The ways to write the characters of a string. -/
inductive SpellsText : List Char → List Char → Prop
  | nil : SpellsText [] []
  | cons {c : Char} {cs t u : List Char} : SpellsChar c t → SpellsText cs u →
      SpellsText (c :: cs) (t ++ u)

/-- The ways to write a string, in quotes. -/
inductive SpellsString : String → List Char → Prop
  | mk {s : String} {w t : List Char} : Blank w → SpellsText s.toList t →
      SpellsString s (w ++ '"' :: (t ++ ['"']))

/-- What the grammar speaks of. -/
inductive Phrase where
  | value (v : Json)
  /-- What follows an item of an array, with the end of the array. -/
  | items (vs : List Json)
  /-- A field of an object and what follows it, with the end of the object. -/
  | members (fs : List (String × Json))
  /-- What follows a field of an object, with the end of the object. -/
  | fields (fs : List (String × Json))

/-- The ways to write a phrase. -/
inductive Spells : Phrase → List Char → Prop
  | null {w : List Char} : Blank w → Spells (.value .null) (w ++ "null".toList)
  | true {w : List Char} : Blank w → Spells (.value (.bool true)) (w ++ "true".toList)
  | false {w : List Char} : Blank w → Spells (.value (.bool false)) (w ++ "false".toList)
  | number {w : List Char} (n : Nat) : Blank w →
      Spells (.value (.number n)) (w ++ (toString n).toList)
  | string {s : String} {t : List Char} : SpellsString s t → Spells (.value (.string s)) t
  | emptyArray {w w' : List Char} : Blank w → Blank w' →
      Spells (.value (.array [])) (w ++ '[' :: (w' ++ [']']))
  | array {w t u : List Char} {v : Json} {vs : List Json} : Blank w → Spells (.value v) t →
      Spells (.items vs) u → Spells (.value (.array (v :: vs))) (w ++ '[' :: (t ++ u))
  | lastItem {w : List Char} : Blank w → Spells (.items []) (w ++ [']'])
  | nextItem {w t u : List Char} {v : Json} {vs : List Json} : Blank w → Spells (.value v) t →
      Spells (.items vs) u → Spells (.items (v :: vs)) (w ++ ',' :: (t ++ u))
  | emptyObject {w w' : List Char} : Blank w → Blank w' →
      Spells (.value (.object [])) (w ++ '\x7b' :: (w' ++ ['\x7d']))
  | object {w t : List Char} {fs : List (String × Json)} : Blank w → Spells (.members fs) t →
      Spells (.value (.object fs)) (w ++ '\x7b' :: t)
  | member {k w t u : List Char} {key : String} {v : Json} {fs : List (String × Json)} :
      SpellsString key k → Blank w → Spells (.value v) t → Spells (.fields fs) u →
      Spells (.members ((key, v) :: fs)) (k ++ (w ++ ':' :: (t ++ u)))
  | lastField {w : List Char} : Blank w → Spells (.fields []) (w ++ ['\x7d'])
  | nextField {w t : List Char} {fs : List (String × Json)} : Blank w → Spells (.members fs) t →
      Spells (.fields fs) (w ++ ',' :: t)

/-- The texts of a value, which may have blanks behind them too. -/
def IsText (v : Json) (text : List Char) : Prop :=
  ∃ t w, text = t ++ w ∧ Spells (.value v) t ∧ Blank w

/-! ## The decoder -/

/-- Reads four digits of base sixteen. -/
def unit? : List Char → Option (Nat × List Char)
  | a :: b :: c :: d :: rest => do
    let p ← hexValue? a
    let q ← hexValue? b
    let r ← hexValue? c
    let s ← hexValue? d
    some (((p * 16 + q) * 16 + r) * 16 + s, rest)
  | _ => none

/-- Reads what follows the letter `u` of an escape. -/
def unicode? (cs : List Char) : Option (Char × List Char) := do
  let (n, rest) ← unit? cs
  if IsHigh n then
    match rest with
    | '\\' :: 'u' :: rest =>
      let (m, rest) ← unit? rest
      if IsLow m then some (ofPair n m, rest) else none
    | _ => none
  else if IsLow n then none
  else some (Char.ofNat n, rest)

/-- Reads what follows the backslash of an escape. -/
def escape? : List Char → Option (Char × List Char)
  | [] => none
  | e :: rest => if e = 'u' then unicode? rest else (shortEscapes.lookup e).map (·, rest)

/-- Reads one character of a string. -/
def char? : List Char → Option (Char × List Char)
  | [] => none
  | c :: rest =>
    if c = '\\' then escape? rest
    else if c = '"' ∨ c.toNat < 0x20 then none
    else some (c, rest)

/-- Reads the characters of a string and the quote behind them. -/
def textAtFuel : Nat → List Char → Option (List Char × List Char)
  | 0, _ => none
  | n + 1, cs =>
    match char? cs with
    | some (c, rest) => (textAtFuel n rest).map fun (s, rest) => (c :: s, rest)
    | none =>
      match cs with
      | '"' :: rest => some ([], rest)
      | _ => none

/-- Passes over blanks and the given character. -/
def token? (c : Char) (cs : List Char) : Option (List Char) :=
  match cs.dropWhile isBlank with
  | d :: rest => if d = c then some rest else none
  | [] => none

/-- Reads a string in quotes. -/
def string? (cs : List Char) : Option (String × List Char) := do
  let rest ← token? '"' cs
  let (s, rest) ← textAtFuel (rest.length + 1) rest
  some (String.ofList s, rest)

/-- Reads a natural number without superfluous zeros. -/
def number? (cs : List Char) : Option (Json × List Char) :=
  let digits := cs.takeWhile Char.isDigit
  let n := Lexer.decimalValue digits
  if (toString n).toList = digits then some (.number n, cs.dropWhile Char.isDigit) else none

/-- Reads a value that is a word. -/
def word? : List Char → Option (Json × List Char)
  | 'n' :: 'u' :: 'l' :: 'l' :: rest => some (.null, rest)
  | 't' :: 'r' :: 'u' :: 'e' :: rest => some (.bool true, rest)
  | 'f' :: 'a' :: 'l' :: 's' :: 'e' :: rest => some (.bool false, rest)
  | _ => none

mutual

/-- Reads a value. -/
def valueAtFuel : Nat → List Char → Option (Json × List Char)
  | 0, _ => none
  | n + 1, cs =>
    match cs.dropWhile isBlank with
    | [] => none
    | c :: rest =>
      if c = '"' then do
        let (s, rest) ← string? cs
        some (.string s, rest)
      else if c = '[' then
        match token? ']' rest with
        | some rest => some (.array [], rest)
        | none => do
          let (v, rest) ← valueAtFuel n rest
          let (vs, rest) ← itemsAtFuel n rest
          some (.array (v :: vs), rest)
      else if c = '\x7b' then
        match token? '\x7d' rest with
        | some rest => some (.object [], rest)
        | none => do
          let (fs, rest) ← membersAtFuel n rest
          some (.object fs, rest)
      else if c.isDigit then number? (c :: rest)
      else word? (c :: rest)

/-- Reads what follows an item of an array. -/
def itemsAtFuel : Nat → List Char → Option (List Json × List Char)
  | 0, _ => none
  | n + 1, cs =>
    match token? ']' cs with
    | some rest => some ([], rest)
    | none => do
      let rest ← token? ',' cs
      let (v, rest) ← valueAtFuel n rest
      let (vs, rest) ← itemsAtFuel n rest
      some (v :: vs, rest)

/-- Reads a field of an object and what follows it. -/
def membersAtFuel : Nat → List Char → Option (List (String × Json) × List Char)
  | 0, _ => none
  | n + 1, cs => do
    let (key, rest) ← string? cs
    let rest ← token? ':' rest
    let (v, rest) ← valueAtFuel n rest
    let (fs, rest) ← fieldsAtFuel n rest
    some ((key, v) :: fs, rest)

/-- Reads what follows a field of an object. -/
def fieldsAtFuel : Nat → List Char → Option (List (String × Json) × List Char)
  | 0, _ => none
  | n + 1, cs =>
    match token? '\x7d' cs with
    | some rest => some ([], rest)
    | none => do
      let rest ← token? ',' cs
      membersAtFuel n rest

end

/-- The value of a text. -/
def decode? (text : List Char) : Option Json := do
  let (v, rest) ← valueAtFuel (text.length + 1) text
  if rest.all isBlank then some v else none

/-! ## Characters and strings -/

/-- Four digits of base sixteen are read as their number. -/
theorem IsUnit.read {n : Nat} {t : List Char} (h : IsUnit n t) (rest : List Char) :
    unit? (t ++ rest) = some (n, rest) := by
  obtain ⟨hp, hq, hr, hs⟩ := h
  simp [unit?, hp, hq, hr, hs]

/-- What is read as a unit is four digits of base sixteen and their number. -/
theorem isUnit_of_read {cs rest : List Char} {n : Nat} (h : unit? cs = some (n, rest)) :
    ∃ t, cs = t ++ rest ∧ IsUnit n t := by
  unfold unit? at h
  split at h
  · next a b c d tail =>
    simp only [Option.bind_eq_bind, Option.bind_eq_some_iff] at h
    obtain ⟨p, hp, q, hq, r, hr, s, hs, heq⟩ := h
    cases heq
    exact ⟨[a, b, c, d], rfl, .mk hp hq hr hs⟩
  · cases h

/-- Every way to write a character is read as this character. -/
theorem SpellsChar.read {c : Char} {t : List Char} (h : SpellsChar c t) (rest : List Char) :
    char? (t ++ rest) = some (c, rest) := by
  cases h with
  | plain hquote hslash hsize => simp [char?, hquote, hslash, hsize]
  | @short _ e he =>
    have hu : e ≠ 'u' := by
      rintro rfl
      cases he
    simp [char?, escape?, hu, he]
  | unit hn hhigh hlow => simp [char?, escape?, unicode?, hn.read, hhigh, hlow]
  | pair hn hm hhigh hlow => simp [char?, escape?, unicode?, hn.read, hm.read, hhigh, hlow]

/-- What is read behind `\u` is a way to write the character. -/
theorem spellsChar_of_unicode? {cs rest : List Char} {c : Char} (h : unicode? cs = some (c, rest)) :
    ∃ t, cs = t ++ rest ∧ SpellsChar c ('\\' :: 'u' :: t) := by
  obtain ⟨⟨n, tail⟩, hunit, htail⟩ := Option.bind_eq_some_iff.mp h
  obtain ⟨t, rfl, hn⟩ := isUnit_of_read hunit
  dsimp only at htail
  split at htail
  · next hhigh =>
    split at htail
    · obtain ⟨⟨m, tail⟩, hunit', hlast⟩ := Option.bind_eq_some_iff.mp htail
      obtain ⟨u, rfl, hm⟩ := isUnit_of_read hunit'
      dsimp only at hlast
      split at hlast
      · next hlow =>
        obtain ⟨rfl, rfl⟩ := Prod.mk.inj (Option.some.inj hlast)
        exact ⟨t ++ '\\' :: 'u' :: u, by simp, .pair hn hm hhigh hlow⟩
      · cases hlast
    · cases htail
  · next hhigh =>
    split at htail
    · cases htail
    · next hlow =>
      cases htail
      exact ⟨t, rfl, .unit hn hhigh hlow⟩

/-- What is read as a character is a way to write it. -/
theorem spellsChar_of_read {cs rest : List Char} {c : Char} (h : char? cs = some (c, rest)) :
    ∃ t, cs = t ++ rest ∧ SpellsChar c t := by
  unfold char? at h
  split at h
  · cases h
  · next d tail =>
    split at h
    · next hd =>
      subst hd
      unfold escape? at h
      split at h
      · cases h
      · next e tail =>
        split at h
        · next he =>
          subst he
          obtain ⟨t, rfl, ht⟩ := spellsChar_of_unicode? h
          exact ⟨_, rfl, ht⟩
        · obtain ⟨c', hc', heq⟩ := Option.map_eq_some_iff.mp h
          cases heq
          exact ⟨['\\', e], rfl, .short hc'⟩
    · next hd =>
      split at h
      · cases h
      · next hplain =>
        cases h
        obtain ⟨hquote, hsize⟩ := not_or.mp hplain
        exact ⟨[_], rfl, .plain hquote hd (Nat.not_lt.mp hsize)⟩

/-- No character is written with nothing. -/
theorem SpellsChar.length_pos {c : Char} {t : List Char} (h : SpellsChar c t) : 0 < t.length := by
  cases h <;> exact Nat.succ_pos _

/-- Every way to write the characters of a string is read as these characters, up to the quote. -/
theorem SpellsText.read {s t : List Char} (h : SpellsText s t) {n : Nat} (hn : t.length < n)
    (rest : List Char) : textAtFuel n (t ++ '"' :: rest) = some (s, rest) := by
  induction h generalizing n with
  | nil =>
    cases n with
    | zero => cases hn
    | succ n => rfl
  | @cons c cs t u hc _ ih =>
    have hpos := hc.length_pos
    rw [List.length_append] at hn
    cases n with
    | zero => cases hn
    | succ n =>
      unfold textAtFuel
      rw [List.append_assoc, hc.read]
      dsimp only
      rw [ih (by omega)]
      rfl

/-- What is read as the characters of a string is a way to write them. -/
theorem spellsText_of_read {n : Nat} {cs s rest : List Char}
    (h : textAtFuel n cs = some (s, rest)) : ∃ t, cs = t ++ '"' :: rest ∧ SpellsText s t := by
  induction n generalizing cs s with
  | zero => cases h
  | succ n ih =>
    unfold textAtFuel at h
    split at h
    · next c tail hc =>
      obtain ⟨t, rfl, ht⟩ := spellsChar_of_read hc
      obtain ⟨⟨s', rest'⟩, htail, heq⟩ := Option.map_eq_some_iff.mp h
      cases heq
      obtain ⟨u, rfl, hu⟩ := ih htail
      exact ⟨t ++ u, by simp, .cons ht hu⟩
    · split at h <;> cases h
      exact ⟨[], rfl, .nil⟩

/-! ## Tokens -/

/-- Blanks in front of another character are passed over. -/
theorem dropWhile_blank {w : List Char} (hw : Blank w) {c : Char} (hc : isBlank c = false)
    (rest : List Char) : (w ++ c :: rest).dropWhile isBlank = c :: rest := by
  have hstop : ∀ d ∈ (c :: rest).head?, isBlank d = false := by
    rintro _ ⟨⟩
    exact hc
  exact (Lexer.takeWhile_append_of_head? hw hstop).2

/-- What is passed over in front of a character is blanks. -/
theorem exists_blank_of_dropWhile {cs rest : List Char} {c : Char}
    (h : cs.dropWhile isBlank = c :: rest) : ∃ w, cs = w ++ c :: rest ∧ Blank w := by
  refine ⟨cs.takeWhile isBlank, ?_, List.all_eq_true.mp List.all_takeWhile⟩
  rw [← h, List.takeWhile_append_dropWhile]

/-- A token behind blanks is found. -/
theorem token?_append {w : List Char} (hw : Blank w) {c : Char} (hc : isBlank c = false)
    (rest : List Char) : token? c (w ++ c :: rest) = some rest := by
  rw [token?, dropWhile_blank hw hc]
  exact if_pos rfl

/-- Another character behind blanks is not taken for the token. -/
theorem token?_eq_none {w : List Char} (hw : Blank w) {c d : Char} (hd : isBlank d = false)
    (hne : d ≠ c) (rest : List Char) : token? c (w ++ d :: rest) = none := by
  rw [token?, dropWhile_blank hw hd]
  exact if_neg hne

/-- A token that is found stands behind blanks. -/
theorem exists_of_token? {cs rest : List Char} {c : Char} (h : token? c cs = some rest) :
    ∃ w, cs = w ++ c :: rest ∧ Blank w := by
  unfold token? at h
  split at h
  · next d tail hd =>
    split at h
    · next hdc =>
      cases h
      exact hdc ▸ exists_blank_of_dropWhile hd
    · cases h
  · cases h

/-- Every way to write a string is read as this string. -/
theorem SpellsString.read {s : String} {t : List Char} (h : SpellsString s t) (rest : List Char) :
    string? (t ++ rest) = some (s, rest) := by
  cases h with
  | @mk w t hw ht =>
    have htoken := token?_append hw (c := '"') rfl (t ++ '"' :: rest)
    have htext := ht.read (n := (t ++ '"' :: rest).length + 1) (Nat.lt_succ_of_le (by simp)) rest
    simp only [List.append_assoc, List.cons_append, List.nil_append]
    simp only [string?, htoken, htext, Option.bind_eq_bind, Option.bind_some, String.ofList_toList]

/-- What is read as a string is a way to write it. -/
theorem spellsString_of_read {cs rest : List Char} {s : String}
    (h : string? cs = some (s, rest)) : ∃ t, cs = t ++ rest ∧ SpellsString s t := by
  obtain ⟨tail, htoken, htail⟩ := Option.bind_eq_some_iff.mp h
  obtain ⟨w, rfl, hw⟩ := exists_of_token? htoken
  obtain ⟨⟨chars, rest'⟩, htext, heq⟩ := Option.bind_eq_some_iff.mp htail
  cases heq
  obtain ⟨t, rfl, ht⟩ := spellsText_of_read htext
  refine ⟨w ++ '"' :: (t ++ ['"']), by simp, .mk hw ?_⟩
  rwa [String.toList_ofList]

/-! ## Numbers and words -/

/-- The text does not begin with a digit. -/
def NoDigit (cs : List Char) : Prop :=
  ∀ c ∈ cs.head?, c.isDigit = false

/-- A digit is no blank. -/
theorem isBlank_eq_false_of_isDigit {c : Char} (h : c.isDigit = true) : isBlank c = false := by
  have hblank := Lexer.not_isBlank (p := Char.isDigit) rfl h
  simp only [Lexer.isBlank, Bool.or_eq_false_iff] at hblank
  simp [isBlank, hblank]

/-- Blanks do not begin with a digit. -/
theorem noDigit_of_blank {w : List Char} (hw : Blank w) : NoDigit w := by
  intro c hc
  have hblank := hw c (List.mem_of_mem_head? hc)
  rw [Bool.eq_false_iff]
  intro hdigit
  rw [isBlank_eq_false_of_isDigit hdigit] at hblank
  cases hblank

/-- Blanks and then a character that is no digit. -/
theorem noDigit_append {w : List Char} (hw : Blank w) {c : Char} (hc : c.isDigit = false)
    (rest : List Char) : NoDigit (w ++ c :: rest) := by
  cases w with
  | nil =>
    intro d hd
    exact Option.mem_some_iff.mp hd ▸ hc
  | cons b w =>
    intro d hd
    exact noDigit_of_blank hw d hd

/-- The digits of a number are read as the number, if no other digit follows. -/
theorem number?_append (n : Nat) {rest : List Char} (hrest : NoDigit rest) :
    number? ((toString n).toList ++ rest) = some (.number n, rest) := by
  have hdigits : ∀ d ∈ (toString n).toList, d.isDigit = true := fun _ => isDigit_of_mem_toString
  obtain ⟨htake, hdrop⟩ := Lexer.takeWhile_append_of_head? hdigits hrest
  rw [number?, htake, hdrop, Lexer.decimalValue_toString]
  exact if_pos rfl

/-- What is read as a number is its digits. -/
theorem eq_of_number? {cs rest : List Char} {v : Json} (h : number? cs = some (v, rest)) :
    ∃ n, v = .number n ∧ cs = (toString n).toList ++ rest := by
  unfold number? at h
  dsimp only at h
  split at h
  · next hdigits =>
    obtain ⟨rfl, rfl⟩ := Prod.mk.inj (Option.some.inj h)
    exact ⟨_, rfl, by rw [hdigits, List.takeWhile_append_dropWhile]⟩
  · cases h

/-- What is read as a word is a way to write its value, behind blanks. -/
theorem spells_of_word? {cs rest w : List Char} {v : Json} (h : word? cs = some (v, rest))
    (hw : Blank w) : ∃ t, cs = t ++ rest ∧ Spells (.value v) (w ++ t) := by
  unfold word? at h
  split at h
  · cases h
    exact ⟨"null".toList, rfl, .null hw⟩
  · cases h
    exact ⟨"true".toList, rfl, .true hw⟩
  · cases h
    exact ⟨"false".toList, rfl, .false hw⟩
  · cases h

/-- A word behind blanks is read as its value. -/
theorem valueAtFuel_of_word? {w cs rest : List Char} {v : Json} (hw : Blank w)
    (h : word? cs = some (v, rest)) (n : Nat) : valueAtFuel (n + 1) (w ++ cs) = some (v, rest) := by
  unfold word? at h
  split at h <;> cases h
  all_goals
    rw [valueAtFuel, dropWhile_blank hw rfl]
    rfl

/-! ## Values -/

/-- The decoder reads the phrase and leaves the rest. -/
def Phrase.Reads (n : Nat) (cs rest : List Char) : Phrase → Prop
  | .value v => valueAtFuel n cs = some (v, rest)
  | .items vs => itemsAtFuel n cs = some (vs, rest)
  | .members fs => membersAtFuel n cs = some (fs, rest)
  | .fields fs => fieldsAtFuel n cs = some (fs, rest)

/-- What follows a value in an array or an object does not go on with a digit. -/
theorem Spells.noDigit {p : Phrase} {t : List Char} (h : Spells p t) (hp : ∀ v, p ≠ .value v)
    (rest : List Char) : NoDigit (t ++ rest) := by
  cases h with
  | lastItem hw | nextItem hw | lastField hw | nextField hw =>
    rw [List.append_assoc]
    exact noDigit_append hw rfl _
  | member hkey =>
    cases hkey with
    | mk hw =>
      rw [List.append_assoc, List.append_assoc]
      exact noDigit_append hw rfl _
  | _ => exact absurd rfl (hp _)

/-- A value does not begin like the end of an array. -/
theorem Spells.token?_eq_none {v : Json} {t : List Char} (h : Spells (.value v) t)
    (rest : List Char) : token? ']' (t ++ rest) = none := by
  cases h with
  | null hw | true hw | false hw | emptyArray hw | array hw | emptyObject hw | object hw =>
    rw [List.append_assoc]
    exact Json.token?_eq_none hw rfl (by decide) _
  | string hs =>
    cases hs with
    | mk hw =>
      rw [List.append_assoc]
      exact Json.token?_eq_none hw rfl (by decide) _
  | number n hw =>
    obtain ⟨c, cs, heq, hc⟩ := exists_digit_cons n
    rw [List.append_assoc, heq]
    exact Json.token?_eq_none hw (isBlank_eq_false_of_isDigit hc)
      (Lexer.ne_of_class (p := Char.isDigit) rfl hc) _

/-- Nor does a field begin like the end of an object. -/
theorem Spells.token?_members_eq_none {fs : List (String × Json)} {t : List Char}
    (h : Spells (.members fs) t) (rest : List Char) : token? '\x7d' (t ++ rest) = none := by
  cases h with
  | member hkey =>
    cases hkey with
    | mk hw =>
      rw [List.append_assoc, List.append_assoc]
      exact Json.token?_eq_none hw rfl (by decide) _

/-- No string is written with nothing. -/
theorem SpellsString.length_pos {s : String} {t : List Char} (h : SpellsString s t) :
    0 < t.length := by
  cases h
  rw [List.length_append, List.length_cons]
  omega

/-- Every text of the grammar is read, whatever follows, if there is fuel for each of its
characters. The induction is on the way in which it is written. -/
theorem Spells.reads {p : Phrase} {t : List Char} (h : Spells p t) {n : Nat} {rest : List Char}
    (hn : (t ++ rest).length ≤ n) (hrest : NoDigit rest) : p.Reads (n + 1) (t ++ rest) rest := by
  induction h generalizing n rest with
  | null hw | true hw | false hw =>
    rw [List.append_assoc]
    exact valueAtFuel_of_word? hw rfl n
  | number k hw =>
    -- a digit behind the number would be read with it; this is what `NoDigit` is for
    obtain ⟨c, cs, heq, hc⟩ := exists_digit_cons k
    have hnumber := number?_append k hrest
    have hne {d : Char} (hd : d.isDigit = Bool.false) : c ≠ d :=
      Lexer.ne_of_class (p := Char.isDigit) hd hc
    rw [heq] at hnumber
    rw [Phrase.Reads, valueAtFuel, List.append_assoc, heq, List.cons_append,
      dropWhile_blank hw (isBlank_eq_false_of_isDigit hc)]
    simp only [hne (d := '"') rfl, hne (d := '[') rfl, hne (d := '\x7b') rfl, hc, if_true, if_false]
    exact hnumber
  | @string s t hs =>
    have hstring := hs.read rest
    cases hs with
    | @mk w t hw ht =>
      simp only [List.append_assoc, List.cons_append] at hstring ⊢
      rw [Phrase.Reads, valueAtFuel, dropWhile_blank hw rfl]
      simp only [if_true, hstring, Option.bind_eq_bind, Option.bind_some]
  | @emptyArray w w' hw hw' =>
    simp only [List.append_assoc, List.cons_append, List.nil_append]
    rw [Phrase.Reads, valueAtFuel, dropWhile_blank hw rfl]
    simp only [token?_append hw' (c := ']') rfl]
    rfl
  | @array w t u v vs hw hv hvs ihv ihvs =>
    simp only [List.append_assoc, List.cons_append, List.length_append, List.length_cons] at hn ⊢
    -- the bracket pays for one unit of fuel
    obtain ⟨m, rfl⟩ : ∃ m, n = m + 1 := Nat.exists_eq_succ_of_ne_zero (by omega)
    have hvalue : valueAtFuel (m + 1) (t ++ (u ++ rest)) = some (v, u ++ rest) :=
      ihv (by simp only [List.length_append]; omega) (hvs.noDigit nofun rest)
    have hitems : itemsAtFuel (m + 1) (u ++ rest) = some (vs, rest) :=
      ihvs (by simp only [List.length_append]; omega) hrest
    rw [Phrase.Reads, valueAtFuel, dropWhile_blank hw rfl]
    simp only [hv.token?_eq_none, hvalue, hitems, Option.bind_eq_bind, Option.bind_some]
    rfl
  | lastItem hw =>
    rw [Phrase.Reads, itemsAtFuel, List.append_assoc, List.singleton_append,
      token?_append hw rfl]
  | @nextItem w t u v vs hw hv hvs ihv ihvs =>
    simp only [List.append_assoc, List.cons_append, List.length_append, List.length_cons] at hn ⊢
    obtain ⟨m, rfl⟩ : ∃ m, n = m + 1 := Nat.exists_eq_succ_of_ne_zero (by omega)
    have hvalue : valueAtFuel (m + 1) (t ++ (u ++ rest)) = some (v, u ++ rest) :=
      ihv (by simp only [List.length_append]; omega) (hvs.noDigit nofun rest)
    have hitems : itemsAtFuel (m + 1) (u ++ rest) = some (vs, rest) :=
      ihvs (by simp only [List.length_append]; omega) hrest
    rw [Phrase.Reads, itemsAtFuel, Json.token?_eq_none hw rfl (by decide), token?_append hw rfl]
    simp only [hvalue, hitems, Option.bind_eq_bind, Option.bind_some]
  | @emptyObject w w' hw hw' =>
    simp only [List.append_assoc, List.cons_append, List.nil_append]
    rw [Phrase.Reads, valueAtFuel, dropWhile_blank hw rfl]
    simp only [token?_append hw' (c := '\x7d') rfl]
    rfl
  | @object w t fs hw hfs ih =>
    simp only [List.append_assoc, List.cons_append, List.length_append, List.length_cons] at hn ⊢
    obtain ⟨m, rfl⟩ : ∃ m, n = m + 1 := Nat.exists_eq_succ_of_ne_zero (by omega)
    have hmembers : membersAtFuel (m + 1) (t ++ rest) = some (fs, rest) :=
      ih (by simp only [List.length_append]; omega) hrest
    rw [Phrase.Reads, valueAtFuel, dropWhile_blank hw rfl]
    simp only [hfs.token?_members_eq_none, hmembers, Option.bind_eq_bind, Option.bind_some]
    rfl
  | @member k w t u key v fs hkey hw hv hfs ihv ihfs =>
    have hpos := hkey.length_pos
    simp only [List.append_assoc, List.cons_append, List.length_append, List.length_cons] at hn ⊢
    obtain ⟨m, rfl⟩ : ∃ m, n = m + 1 := Nat.exists_eq_succ_of_ne_zero (by omega)
    have hvalue : valueAtFuel (m + 1) (t ++ (u ++ rest)) = some (v, u ++ rest) :=
      ihv (by simp only [List.length_append]; omega) (hfs.noDigit nofun rest)
    have hfields : fieldsAtFuel (m + 1) (u ++ rest) = some (fs, rest) :=
      ihfs (by simp only [List.length_append]; omega) hrest
    rw [Phrase.Reads, membersAtFuel]
    simp only [hkey.read, token?_append hw (c := ':') rfl, hvalue, hfields, Option.bind_eq_bind,
      Option.bind_some]
  | lastField hw =>
    rw [Phrase.Reads, fieldsAtFuel, List.append_assoc, List.singleton_append,
      token?_append hw rfl]
  | @nextField w t fs hw hfs ih =>
    simp only [List.append_assoc, List.cons_append, List.length_append, List.length_cons] at hn ⊢
    obtain ⟨m, rfl⟩ : ∃ m, n = m + 1 := Nat.exists_eq_succ_of_ne_zero (by omega)
    rw [Phrase.Reads, fieldsAtFuel, Json.token?_eq_none hw rfl (by decide), token?_append hw rfl]
    exact ih (by simp only [List.length_append]; omega) hrest

/-- A value that is read is written after the grammar, if what is read inside of it is. -/
theorem spells_of_valueAtFuel {n : Nat} {v : Json} {cs rest : List Char}
    (h : valueAtFuel (n + 1) cs = some (v, rest))
    (ih : ∀ {p : Phrase} {cs rest}, p.Reads n cs rest → ∃ t, cs = t ++ rest ∧ Spells p t) :
    ∃ t, cs = t ++ rest ∧ Spells (.value v) t := by
  rw [valueAtFuel] at h
  split at h
  · cases h
  next c tail hskip =>
  split at h
  · obtain ⟨⟨s, rest'⟩, hs, heq⟩ := Option.bind_eq_some_iff.mp h
    cases heq
    obtain ⟨t, rfl, ht⟩ := spellsString_of_read hs
    exact ⟨t, rfl, .string ht⟩
  obtain ⟨w, rfl, hw⟩ := exists_blank_of_dropWhile hskip
  split at h
  · next hc =>
    subst hc
    split at h
    · next tail' htoken =>
      cases h
      obtain ⟨w', rfl, hw'⟩ := exists_of_token? htoken
      exact ⟨w ++ '[' :: (w' ++ [']']), by simp, .emptyArray hw hw'⟩
    · simp only [Option.bind_eq_bind, Option.bind_eq_some_iff] at h
      obtain ⟨⟨v, tail'⟩, hv, ⟨vs, rest'⟩, hvs, heq⟩ := h
      cases heq
      obtain ⟨t, rfl, ht⟩ := ih (p := .value v) hv
      obtain ⟨u, rfl, hu⟩ := ih (p := .items vs) hvs
      exact ⟨w ++ '[' :: (t ++ u), by simp, .array hw ht hu⟩
  split at h
  · next hc =>
    subst hc
    split at h
    · next tail' htoken =>
      cases h
      obtain ⟨w', rfl, hw'⟩ := exists_of_token? htoken
      exact ⟨w ++ '\x7b' :: (w' ++ ['\x7d']), by simp, .emptyObject hw hw'⟩
    · obtain ⟨⟨fs, rest'⟩, hfs, heq⟩ := Option.bind_eq_some_iff.mp h
      cases heq
      obtain ⟨t, rfl, ht⟩ := ih (p := .members fs) hfs
      exact ⟨w ++ '\x7b' :: t, by simp, .object hw ht⟩
  split at h
  · obtain ⟨k, rfl, hk⟩ := eq_of_number? h
    exact ⟨w ++ (toString k).toList, by rw [hk, List.append_assoc], .number k hw⟩
  · obtain ⟨t, ht, hspells⟩ := spells_of_word? h hw
    exact ⟨w ++ t, by rw [ht, List.append_assoc], hspells⟩

/-- What is read is written after the grammar. -/
theorem spells_of_reads {n : Nat} {p : Phrase} {cs rest : List Char} (h : p.Reads n cs rest) :
    ∃ t, cs = t ++ rest ∧ Spells p t := by
  induction n generalizing p cs rest with
  | zero => cases p <;> cases h
  | succ n ih =>
    cases p with
    | value v => exact spells_of_valueAtFuel h ih
    | items vs =>
      rw [Phrase.Reads, itemsAtFuel] at h
      split at h
      · next tail htoken =>
        cases h
        obtain ⟨w, rfl, hw⟩ := exists_of_token? htoken
        exact ⟨w ++ [']'], by simp, .lastItem hw⟩
      · simp only [Option.bind_eq_bind, Option.bind_eq_some_iff] at h
        obtain ⟨tail, htoken, ⟨v, tail'⟩, hv, ⟨vs', rest'⟩, hvs, heq⟩ := h
        cases heq
        obtain ⟨w, rfl, hw⟩ := exists_of_token? htoken
        obtain ⟨t, rfl, ht⟩ := ih (p := .value v) hv
        obtain ⟨u, rfl, hu⟩ := ih (p := .items vs') hvs
        exact ⟨w ++ ',' :: (t ++ u), by simp, .nextItem hw ht hu⟩
    | members fs =>
      rw [Phrase.Reads, membersAtFuel] at h
      simp only [Option.bind_eq_bind, Option.bind_eq_some_iff] at h
      obtain ⟨⟨key, tail⟩, hkey, tail', htoken, ⟨v, tail''⟩, hv, ⟨fs', rest'⟩, hfs, heq⟩ := h
      cases heq
      obtain ⟨k, rfl, hk⟩ := spellsString_of_read hkey
      obtain ⟨w, rfl, hw⟩ := exists_of_token? htoken
      obtain ⟨t, rfl, ht⟩ := ih (p := .value v) hv
      obtain ⟨u, rfl, hu⟩ := ih (p := .fields fs') hfs
      exact ⟨k ++ (w ++ ':' :: (t ++ u)), by simp, .member hk hw ht hu⟩
    | fields fs =>
      rw [Phrase.Reads, fieldsAtFuel] at h
      split at h
      · next tail htoken =>
        cases h
        obtain ⟨w, rfl, hw⟩ := exists_of_token? htoken
        exact ⟨w ++ ['\x7d'], by simp, .lastField hw⟩
      · obtain ⟨tail, htoken, hfs⟩ := Option.bind_eq_some_iff.mp h
        obtain ⟨w, rfl, hw⟩ := exists_of_token? htoken
        obtain ⟨t, rfl, ht⟩ := ih (p := .members fs) hfs
        exact ⟨w ++ ',' :: t, by simp, .nextField hw ht⟩

/-- **The decoder accepts exactly the texts of a value**, and finds this value. -/
theorem decode?_eq_some_iff {text : List Char} {v : Json} :
    decode? text = some v ↔ IsText v text := by
  constructor
  · intro h
    obtain ⟨⟨v', rest⟩, hvalue, hrest⟩ := Option.bind_eq_some_iff.mp h
    dsimp only at hrest
    split at hrest
    · next hblank =>
      cases hrest
      obtain ⟨t, rfl, ht⟩ := spells_of_reads (p := .value v) hvalue
      exact ⟨t, rest, rfl, ht, List.all_eq_true.mp hblank⟩
    · cases hrest
  · rintro ⟨t, w, rfl, ht, hw⟩
    have hvalue : valueAtFuel ((t ++ w).length + 1) (t ++ w) = some (v, w) :=
      ht.reads (Nat.le_refl _) (noDigit_of_blank hw)
    rw [decode?, hvalue, Option.bind_eq_bind, Option.bind_some]
    exact if_pos (List.all_eq_true.mpr hw)

end Duet.Json
