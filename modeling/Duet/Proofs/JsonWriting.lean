import Duet.Proofs.JsonTexts

/-!
# Written JSON

The written form of a value is one of its texts, in every layout that sets nothing but blanks around
the tokens of a value (`isText_write`). So the value can be read off it, and off nothing else.

A string is written without any character below U+0020. So a text has such characters only if its
layout sets them between tokens (`visible_write`).
-/

namespace Duet.Json

/-- Blanks behind blanks are blanks. -/
theorem Blank.append {w w' : List Char} (h : Blank w) (h' : Blank w') : Blank (w ++ w') :=
  List.forall_mem_append.mpr ⟨h, h'⟩

theorem blank_nil : Blank [] :=
  List.forall_mem_nil _

/-! ## Strings -/

/-- A digit of base sixteen that is written is read back. -/
theorem hexValue?_hexDigit {n : Nat} (h : n < 16) : hexValue? (hexDigit n) = some n := by
  have hall : ∀ k < 16, hexValue? (hexDigit k) = some k := by decide
  exact hall n h

/-- A character is written in one of the ways to write it. -/
theorem spellsChar_escapeChar (c : Char) : SpellsChar c (escapeChar c) := by
  unfold escapeChar
  -- Seven characters have an escape of one letter.
  iterate 7
    split
    · next hc =>
      subst hc
      exact .short rfl
  split
  · next hcontrol =>
    have hunit : IsUnit (((0 * 16 + 0) * 16 + c.toNat / 16) * 16 + c.toNat % 16)
        ['0', '0', hexDigit (c.toNat / 16), hexDigit (c.toNat % 16)] :=
      .mk rfl rfl (hexValue?_hexDigit (by omega)) (hexValue?_hexDigit (by omega))
    have hvalue : ((0 * 16 + 0) * 16 + c.toNat / 16) * 16 + c.toNat % 16 = c.toNat := by omega
    rw [hvalue] at hunit
    have hspells := SpellsChar.unit hunit (fun hhigh => by have := hhigh.1; omega)
      (fun hlow => by have := hlow.1; omega)
    rwa [Char.ofNat_toNat] at hspells
  · next hquote hslash _ _ _ _ _ hcontrol =>
    exact .plain hquote hslash (Nat.not_lt.mp hcontrol)

/-- The characters of a string are written with an escape where they need one. -/
theorem spellsText_flatMap (s : List Char) : SpellsText s (s.flatMap escapeChar) := by
  induction s with
  | nil => exact .nil
  | cons c s ih => exact .cons (spellsChar_escapeChar c) ih

/-- A quoted string is written as the grammar says, with or without blanks in front. -/
theorem spellsString_quote {w : List Char} (hw : Blank w) (s : String) :
    SpellsString s (w ++ quote s) :=
  .mk hw (spellsText_flatMap s.toList)

/-! ## Values -/

/-- An array is written in brackets, as its first item and the others behind it. -/
theorem write_array (layout : Layout) (depth : Nat) (v : Json) (vs : List Json)
    (rest : List Char) :
    (array (v :: vs)).write layout depth rest =
      '[' :: layout.newline (depth + 1) ++ v.write layout (depth + 1)
        (writeItems layout (depth + 1) vs (layout.newline depth ++ ']' :: rest)) :=
  rfl

/-- An item is written behind a comma. -/
theorem writeItems_cons (layout : Layout) (depth : Nat) (v : Json) (vs : List Json)
    (rest : List Char) :
    writeItems layout depth (v :: vs) rest =
      ',' :: layout.newline depth ++ v.write layout depth (writeItems layout depth vs rest) :=
  rfl

/-- An object is written in braces, as its first field and the others behind it. -/
theorem write_object (layout : Layout) (depth : Nat) (key : String) (v : Json)
    (fs : List (String × Json)) (rest : List Char) :
    (object ((key, v) :: fs)).write layout depth rest =
      '\x7b' :: layout.newline (depth + 1) ++ quote key ++ layout.colon ++
        v.write layout (depth + 1)
          (writeFields layout (depth + 1) fs (layout.newline depth ++ '\x7d' :: rest)) :=
  rfl

/-- A field is written behind a comma. -/
theorem writeFields_cons (layout : Layout) (depth : Nat) (key : String) (v : Json)
    (fs : List (String × Json)) (rest : List Char) :
    writeFields layout depth ((key, v) :: fs) rest =
      ',' :: layout.newline depth ++ quote key ++ layout.colon ++
        v.write layout depth (writeFields layout depth fs rest) :=
  rfl

/-- The layout sets nothing but blanks around the tokens of a value. -/
structure Layout.Plain (layout : Layout) : Prop where
  newline : ∀ depth, Blank (layout.newline depth)
  colon : ∃ w, layout.colon = ':' :: w ∧ Blank w

/-- Blanks may be added before a value. -/
theorem Spells.blank_append {v : Json} {w t : List Char} (hw : Blank w)
    (h : Spells (.value v) t) : Spells (.value v) (w ++ t) := by
  cases h with
  | string hs =>
    cases hs with
    | mk hw' ht =>
      rw [← List.append_assoc]
      exact .string (.mk (hw.append hw') ht)
  | null hw' =>
    rw [← List.append_assoc]
    exact .null (hw.append hw')
  | true hw' =>
    rw [← List.append_assoc]
    exact .true (hw.append hw')
  | false hw' =>
    rw [← List.append_assoc]
    exact .false (hw.append hw')
  | number n hw' =>
    rw [← List.append_assoc]
    exact .number n (hw.append hw')
  | emptyArray hw' hw'' =>
    rw [← List.append_assoc]
    exact .emptyArray (hw.append hw') hw''
  | array hw' hv hvs =>
    rw [← List.append_assoc]
    exact .array (hw.append hw') hv hvs
  | emptyObject hw' hw'' =>
    rw [← List.append_assoc]
    exact .emptyObject (hw.append hw') hw''
  | object hw' hfs =>
    rw [← List.append_assoc]
    exact .object (hw.append hw') hfs

section layout

variable {layout : Layout} (hlayout : layout.Plain)
include hlayout

mutual

/-- What is written of a value before the rest is one of its texts. -/
theorem exists_write (depth : Nat) :
    ∀ (v : Json) (rest : List Char), ∃ t, v.write layout depth rest = t ++ rest ∧
      Spells (.value v) t
  | .null, rest => ⟨_, rfl, .null blank_nil⟩
  | .bool true, rest => ⟨_, rfl, .true blank_nil⟩
  | .bool false, rest => ⟨_, rfl, .false blank_nil⟩
  | .number n, rest => ⟨_, rfl, .number n blank_nil⟩
  | .string s, rest => ⟨_, rfl, .string (spellsString_quote blank_nil s)⟩
  | .array [], rest => ⟨_, rfl, .emptyArray blank_nil blank_nil⟩
  | .array (v :: vs), rest => by
    obtain ⟨u, hu, hvs⟩ := exists_writeItems (depth + 1) vs (hlayout.newline depth) rest
    obtain ⟨t, ht, hv⟩ := exists_write (depth + 1) v (u ++ rest)
    refine ⟨_, ?_, .array blank_nil (hv.blank_append (hlayout.newline (depth + 1))) hvs⟩
    rw [write_array, hu, ht]
    simp only [List.append_assoc, List.cons_append, List.nil_append]
  | .object [], rest => ⟨_, rfl, .emptyObject blank_nil blank_nil⟩
  | .object ((key, v) :: fs), rest => by
    obtain ⟨w, hcolon, hw⟩ := hlayout.colon
    obtain ⟨u, hu, hfs⟩ := exists_writeFields (depth + 1) fs (hlayout.newline depth) rest
    obtain ⟨t, ht, hv⟩ := exists_write (depth + 1) v (u ++ rest)
    have hkey := spellsString_quote (hlayout.newline (depth + 1)) key
    refine ⟨_, ?_, .object blank_nil (.member hkey blank_nil (hv.blank_append hw) hfs)⟩
    rw [write_object, hu, ht, hcolon]
    simp only [List.append_assoc, List.cons_append, List.nil_append]

/-- The items that are written behind the first one, up to the bracket, are a way to write them. -/
theorem exists_writeItems (depth : Nat) :
    ∀ (vs : List Json) {w : List Char}, Blank w → ∀ rest : List Char,
      ∃ t, writeItems layout depth vs (w ++ ']' :: rest) = t ++ rest ∧ Spells (.items vs) t
  | [], w, hw, rest => ⟨w ++ [']'], List.append_cons w _ rest, .lastItem hw⟩
  | v :: vs, w, hw, rest => by
    obtain ⟨u, hu, hvs⟩ := exists_writeItems depth vs hw rest
    obtain ⟨t, ht, hv⟩ := exists_write depth v (u ++ rest)
    refine ⟨_, ?_, .nextItem blank_nil (hv.blank_append (hlayout.newline depth)) hvs⟩
    rw [writeItems_cons, hu, ht]
    simp only [List.append_assoc, List.cons_append, List.nil_append]

/-- The fields that are written behind the first one, up to the brace, are a way to write them. -/
theorem exists_writeFields (depth : Nat) :
    ∀ (fs : List (String × Json)) {w : List Char}, Blank w → ∀ rest : List Char,
      ∃ t, writeFields layout depth fs (w ++ '\x7d' :: rest) = t ++ rest ∧ Spells (.fields fs) t
  | [], w, hw, rest => ⟨w ++ ['\x7d'], List.append_cons w _ rest, .lastField hw⟩
  | (key, v) :: fs, w, hw, rest => by
    obtain ⟨w', hcolon, hw'⟩ := hlayout.colon
    obtain ⟨u, hu, hfs⟩ := exists_writeFields depth fs hw rest
    obtain ⟨t, ht, hv⟩ := exists_write depth v (u ++ rest)
    have hkey := spellsString_quote (hlayout.newline depth) key
    refine ⟨_, ?_, .nextField blank_nil (.member hkey blank_nil (hv.blank_append hw') hfs)⟩
    rw [writeFields_cons, hu, ht, hcolon]
    simp only [List.append_assoc, List.cons_append, List.nil_append]

end

/-- The written form of a value is one of its texts. -/
theorem isText_write (v : Json) : IsText v (v.write layout 0 []) := by
  obtain ⟨t, ht, hv⟩ := exists_write hlayout 0 v []
  exact ⟨t, [], ht, hv, blank_nil⟩

/-- The written form is read as the value, and as no other. -/
theorem decode?_write (v : Json) : decode? (v.write layout 0 []) = some v :=
  decode?_eq_some_iff.mpr (isText_write hlayout v)

end layout

/-! ## Control characters -/

/-- No character of the text is below U+0020. -/
def Visible (cs : List Char) : Prop :=
  ∀ c ∈ cs, 0x20 ≤ c.toNat

/-- A visible character in front keeps a text visible. -/
theorem Visible.cons {c : Char} {cs : List Char} (hc : 0x20 ≤ c.toNat) (h : Visible cs) :
    Visible (c :: cs) :=
  List.forall_mem_cons.mpr ⟨hc, h⟩

/-- A text in two visible parts is visible. -/
theorem Visible.append {cs ds : List Char} (h : Visible cs) (h' : Visible ds) :
    Visible (cs ++ ds) :=
  List.forall_mem_append.mpr ⟨h, h'⟩

theorem Visible.of_all {cs : List Char} (h : cs.all (0x20 ≤ ·.toNat) = true) : Visible cs :=
  fun c hc => of_decide_eq_true (List.all_eq_true.mp h c hc)

/-- A character is written with visible characters only. -/
theorem visible_escapeChar (c : Char) : Visible (escapeChar c) := by
  have hdigit : ∀ k < 16, 0x20 ≤ (hexDigit k).toNat := by decide
  unfold escapeChar
  iterate 7
    split
    · exact .of_all rfl
  split
  · have hfront : Visible ['\\', 'u', '0', '0'] := .of_all rfl
    refine hfront.append (.cons (hdigit _ (by omega)) (.cons (hdigit _ (by omega)) ?_))
    exact List.forall_mem_nil _
  · next hcontrol => exact .cons (Nat.not_lt.mp hcontrol) (List.forall_mem_nil _)

/-- A string is written with visible characters only. -/
theorem visible_quote (s : String) : Visible (quote s) := by
  have hchars : Visible (s.toList.flatMap escapeChar) := by
    intro d hd
    obtain ⟨c, -, hc⟩ := List.mem_flatMap.mp hd
    exact visible_escapeChar c d hc
  exact .append (.cons (by decide) hchars) (.of_all rfl)

/-- A number is written with visible characters only. -/
theorem visible_digits (n : Nat) : Visible (digits n) := by
  intro c hc
  have hdigit := isDigit_of_mem_toString hc
  have hge := UInt32.le_iff_toNat_le.mp (of_decide_eq_true (Bool.and_eq_true_iff.mp hdigit).1)
  exact Nat.le_trans (by decide) hge

/-- The layout sets no characters below U+0020, and so no newlines. -/
structure Layout.OnOneLine (layout : Layout) : Prop where
  newline : ∀ depth, Visible (layout.newline depth)
  colon : Visible layout.colon

section visible

variable {layout : Layout} (hlayout : layout.OnOneLine)
include hlayout

mutual

/-- On one line a value is written with visible characters only. -/
theorem visible_write (depth : Nat) : ∀ (v : Json) {rest : List Char}, Visible rest →
    Visible (v.write layout depth rest)
  | .null, _, hrest => .append (.of_all rfl) hrest
  | .bool true, _, hrest => .append (.of_all rfl) hrest
  | .bool false, _, hrest => .append (.of_all rfl) hrest
  | .number n, _, hrest => .append (visible_digits n) hrest
  | .string s, _, hrest => .append (visible_quote s) hrest
  | .array [], _, hrest => .cons (by decide) (.cons (by decide) hrest)
  | .array (v :: vs), rest, hrest => by
    have hclose : Visible (layout.newline depth ++ ']' :: rest) :=
      (hlayout.newline depth).append (.cons (by decide) hrest)
    exact .append (.cons (by decide) (hlayout.newline (depth + 1)))
      (visible_write (depth + 1) v (visible_writeItems (depth + 1) vs hclose))
  | .object [], _, hrest => .cons (by decide) (.cons (by decide) hrest)
  | .object ((key, v) :: fs), rest, hrest => by
    have hclose : Visible (layout.newline depth ++ '\x7d' :: rest) :=
      (hlayout.newline depth).append (.cons (by decide) hrest)
    have hkey : Visible ('\x7b' :: layout.newline (depth + 1) ++ quote key ++ layout.colon) :=
      .append (.append (.cons (by decide) (hlayout.newline (depth + 1))) (visible_quote key))
        hlayout.colon
    exact hkey.append
      (visible_write (depth + 1) v (visible_writeFields (depth + 1) fs hclose))

/-- On one line the items of an array are written with visible characters only. -/
theorem visible_writeItems (depth : Nat) : ∀ (vs : List Json) {rest : List Char}, Visible rest →
    Visible (writeItems layout depth vs rest)
  | [], _, hrest => hrest
  | v :: vs, _, hrest =>
    .append (.cons (by decide) (hlayout.newline depth))
      (visible_write depth v (visible_writeItems depth vs hrest))

/-- On one line the fields of an object are written with visible characters only. -/
theorem visible_writeFields (depth : Nat) : ∀ (fs : List (String × Json)) {rest : List Char},
    Visible rest → Visible (writeFields layout depth fs rest)
  | [], _, hrest => hrest
  | (key, v) :: fs, _, hrest => by
    have hkey : Visible (',' :: layout.newline depth ++ quote key ++ layout.colon) :=
      .append (.append (.cons (by decide) (hlayout.newline depth)) (visible_quote key))
        hlayout.colon
    exact hkey.append (visible_write depth v (visible_writeFields depth fs hrest))

end

end visible

/-! ## The compact form -/

/-- The compact layout sets nothing around the tokens. -/
theorem plain_compact : Layout.compact.Plain where
  newline _ := blank_nil
  colon := ⟨[], rfl, blank_nil⟩

/-- The compact layout keeps to one line. -/
theorem onOneLine_compact : Layout.compact.OnOneLine where
  newline _ := List.forall_mem_nil _
  colon := .of_all rfl

/-- A value is read back from its compact text. -/
theorem decode?_compact (v : Json) : decode? v.compact.toList = some v := by
  rw [compact, String.toList_ofList]
  exact decode?_write plain_compact v

/-- A compact text has no control character, and so no newline. -/
theorem visible_compact (v : Json) : Visible v.compact.toList := by
  rw [compact, String.toList_ofList]
  exact visible_write onOneLine_compact 0 v (List.forall_mem_nil _)

/-! ## The form over several lines -/

/-- The pretty layout sets newlines and spaces around the tokens. -/
theorem plain_pretty : Layout.pretty.Plain where
  newline depth := by
    intro c hc
    rcases List.mem_cons.mp hc with rfl | hblank
    · rfl
    · obtain rfl := List.eq_of_mem_replicate hblank
      rfl
  colon := by
    refine ⟨[' '], rfl, fun c hc => ?_⟩
    obtain rfl := List.mem_singleton.mp hc
    rfl

/-- A value is read back from its pretty text. -/
theorem decode?_pretty (v : Json) : decode? v.pretty.toList = some v := by
  rw [pretty, String.toList_ofList]
  exact decode?_write plain_pretty v

/-- No two values have the same form over several lines. -/
theorem pretty_injective : Function.Injective pretty := by
  intro v w h
  have hdecode := decode?_pretty v
  rw [h, decode?_pretty w] at hdecode
  exact (Option.some.inj hdecode).symm

end Duet.Json
