import Duet.Diagnostic.Json
import Duet.Proofs.JsonWriting
import Mathlib.Data.List.Forall2

/-!
# What the JSON form of a diagnostic tells

A diagnostic is written as one JSON object on one line. The text is read as one value only
(`JsonWriting`), and this value tells everything about the diagnostic but the source: `ToldBy` says
under which keys. A key that may be missing is there exactly if there is something to tell, and no
key comes twice, so it does not matter which of several equal keys a reader would take.
-/

namespace Duet

namespace Json

/-- The value under a key of an object. -/
def field? (key : String) : Json → Option Json
  | .object fields => fields.lookup key
  | _ => none

/-- The keys of an object, in order. -/
def keys : Json → List String
  | .object fields => fields.map Prod.fst
  | _ => []

end Json

/-- The value tells the label, and where it starts in the source if there is one. -/
structure Label.ToldBy (source : Option String) (l : Label) (v : Json) : Prop where
  keys_nodup : v.keys.Nodup
  start : v.field? "start" = some (.number l.span.start)
  stop : v.field? "end" = some (.number l.span.stop)
  message : v.field? "message" = some (.string l.message)
  primary : v.field? "primary" = some (.bool l.primary)
  line : v.field? "line" =
    source.map fun text => .number (Lines.lookup text.toList l.span.start).line
  column : v.field? "col" =
    source.map fun text => .number (Lines.lookup text.toList l.span.start).column

/-- The value of a label tells the label. -/
theorem Label.toldBy_toJson (source : Option String) (l : Label) :
    l.ToldBy source (l.toJson source) := by
  cases source with
  | none => exact ⟨by simp [Json.keys, toJson], rfl, rfl, rfl, rfl, rfl, rfl⟩
  | some text => exact ⟨by simp [Json.keys, toJson], rfl, rfl, rfl, rfl, rfl, rfl⟩

/-- The value tells all of the diagnostic but its source. -/
structure Diagnostic.ToldBy (d : Diagnostic) (v : Json) : Prop where
  keys_nodup : v.keys.Nodup
  severity : v.field? "severity" = some (.string "error")
  message : v.field? "message" = some (.string d.message)
  code : v.field? "code" = d.code.map .string
  suggestion : v.field? "suggestion" = d.suggestion.map .string
  notes : v.field? "notes" = some (.array (d.notes.map .string))
  labels : ∃ vs, v.field? "labels" = some (.array vs) ∧
    List.Forall₂ (Label.ToldBy d.source) d.labels vs

/-- The value of a diagnostic tells the diagnostic. -/
theorem Diagnostic.toldBy_toJson (d : Diagnostic) : d.ToldBy d.toJson := by
  have hlabels : List.Forall₂ (Label.ToldBy d.source) d.labels
      (d.labels.map (Label.toJson d.source)) := by
    rw [List.forall₂_map_right_iff, List.forall₂_same]
    exact fun l _ => l.toldBy_toJson d.source
  obtain ⟨code, message, labels, notes, suggestion, source⟩ := d
  cases code <;> cases suggestion
  all_goals exact ⟨by simp [Json.keys, toJson], rfl, rfl, rfl, rfl, rfl, _, rfl, hlabels⟩

/-- **JSON diagnostics are one line and lose nothing.** The JSON form of a diagnostic has no
character below U+0020. It is the text of exactly one JSON value, which a decoder finds, and this
value tells the message, the code, the suggestion, the notes in order and the labels in order, each
with its line and column if there is a source. -/
theorem renderJson_tells (d : Diagnostic) :
    Json.Visible d.renderJson.toList ∧
      ∃ v, (∀ w, Json.IsText w d.renderJson.toList ↔ w = v) ∧
        Json.decode? d.renderJson.toList = some v ∧ d.ToldBy v := by
  have hdecode : Json.decode? d.renderJson.toList = some d.toJson := Json.decode?_compact d.toJson
  refine ⟨Json.visible_compact d.toJson, d.toJson, ?_, hdecode, d.toldBy_toJson⟩
  intro w
  rw [← Json.decode?_eq_some_iff, hdecode, Option.some_inj, eq_comm]

/-- A message with a quote, a backslash and control characters, and a label on the second line. -/
def controlMessage : Diagnostic where
  message := "\"é\"\t\\\x01"
  labels := [⟨⟨4, 5⟩, "\n", true⟩]
  source := some "é\nxy"

/-- The escaped characters of `controlMessage` come back from the text, and so does the place of its
label. -/
theorem renderJson_tells_controlMessage :
    ∃ v label, Json.decode? controlMessage.renderJson.toList = some v ∧
      v.field? "message" = some (.string "\"é\"\t\\\x01") ∧
      v.field? "labels" = some (.array [label]) ∧ label.field? "message" = some (.string "\n") ∧
      label.field? "line" = some (.number 2) ∧ label.field? "col" = some (.number 2) := by
  obtain ⟨-, v, -, hdecode, htold⟩ := renderJson_tells controlMessage
  obtain ⟨vs, hlabels, hall⟩ := htold.labels
  obtain ⟨label, rest, hlabel, hrest, rfl⟩ := List.forall₂_cons_left_iff.mp hall
  obtain rfl := List.forall₂_nil_left_iff.mp hrest
  have hplace : Lines.lookup "é\nxy".toList 4 = ⟨2, 2⟩ := by decide
  refine ⟨v, label, hdecode, htold.message, hlabels, hlabel.message, ?_, ?_⟩
  · exact hlabel.line.trans (congrArg (fun p : Position => some (Json.number p.line)) hplace)
  · exact hlabel.column.trans (congrArg (fun p : Position => some (Json.number p.column)) hplace)

end Duet
