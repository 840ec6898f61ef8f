import Duet.Proofs.BareTrees
import Duet.Proofs.JsonWriting
import Duet.Tree.Json
import Mathlib.Logic.Basic

/-!
# The JSON form of a program determines it

A program is emitted as a JSON text over several lines. Two steps lie between the program and the
text. The text determines the JSON value, whatever its strings hold (`Json.pretty_injective`). The
value determines the tree, spans aside (`bare_eq_of_toJson_eq`): the form of a node is told by the
only key of its object, and all forms have different keys but the two conditionals, which are told
apart by their alternative. A missing alternative is `null`, and no expression is.
-/

namespace Duet

/-! ## Operators and nodes -/

/-- Different unary operators have different labels. -/
theorem UnaryOp.label_injective : Function.Injective UnaryOp.label := by
  intro op op' h
  cases op <;> cases op' <;> simp_all [label]

/-- The operator with a label. -/
def BinaryOp.ofLabel? (label : String) : Option BinaryOp :=
  [.arith .add, .arith .subtract, .arith .multiply, .arith .divide, .arith .modulo,
    .arith .greaterThan, .arith .lessThan, .equals, .notEquals, .and, .or].find? (·.label = label)

/-- The operator is found by its label. -/
theorem BinaryOp.ofLabel?_label (op : BinaryOp) : ofLabel? op.label = some op := by
  cases op with
  | arith op => cases op <;> rfl
  | equals | notEquals | and | or => rfl

/-- Different binary operators have different labels. -/
theorem BinaryOp.label_injective : Function.Injective BinaryOp.label := by
  intro op op' h
  have hop := op.ofLabel?_label
  rw [h, op'.ofLabel?_label] at hop
  exact (Option.some.inj hop).symm

/-- A node determines its form and its parts. -/
@[simp] theorem Json.node_inj {form form' : String} {parts parts' : List (String × Json)} :
    node form parts = node form' parts' ↔ form = form' ∧ parts = parts' := by
  simp [node]

@[simp] theorem Json.node_ne_string {form : String} {parts : List (String × Json)} {s : String} :
    node form parts ≠ .string s := by
  simp [node]

@[simp] theorem Json.string_ne_node {form : String} {parts : List (String × Json)} {s : String} :
    .string s ≠ node form parts :=
  node_ne_string.symm

/-! ## Expressions -/

namespace Expr

/-- Spans are not told. -/
theorem toJson_bare (e : Expr) : e.bare.toJson = e.toJson := by
  unfold bare
  induction e with
  | integer | text | boolean | nil | name => rfl
  | unary s op e ih | lambda s param e ih => simp only [mapSpan, toJson, ih]
  | binary s op l r ihl ihr | ifThen s l r ihl ihr | apply s l r ihl ihr =>
    simp only [mapSpan, toJson, ihl, ihr]
  | ifElse s c t e ihc iht ihe => simp only [mapSpan, toJson, ihc, iht, ihe]

@[simp] theorem toJson_ne_null (e : Expr) : e.toJson ≠ .null := by
  cases e <;> simp [toJson, Json.node]

@[simp] theorem null_ne_toJson (e : Expr) : .null ≠ e.toJson :=
  e.toJson_ne_null.symm

/-- Everything but spans is told. -/
theorem bare_eq_of_toJson_eq {e e' : Expr} (h : e.toJson = e'.toJson) : e.bare = e'.bare := by
  -- In each case the key of the node leaves one form for the other expression, or two of which one
  -- has no alternative.
  induction e generalizing e' with
  | integer s n =>
    cases e' with
    | integer s' n' =>
      have hdigits : toString n = toString n' := by simpa [toJson] using h
      obtain rfl := Lexer.eq_of_toString_eq hdigits
      rfl
    | _ => simp [toJson] at h
  | text s v =>
    cases e' with
    | text s' v' =>
      obtain rfl : v = v' := by simpa [toJson] using h
      rfl
    | _ => simp [toJson] at h
  | boolean s v =>
    cases e' with
    | boolean s' v' =>
      obtain rfl : v = v' := by simpa [toJson] using h
      rfl
    | _ => simp [toJson] at h
  | nil s =>
    cases e' with
    | nil s' => rfl
    | _ => simp [toJson] at h
  | name s x =>
    cases e' with
    | name s' x' =>
      obtain rfl : x = x' := by simpa [toJson] using h
      rfl
    | _ => simp [toJson] at h
  | unary s op e ih =>
    cases e' with
    | unary s' op' e' =>
      obtain ⟨hop, he⟩ : op.label = op'.label ∧ e.toJson = e'.toJson := by simpa [toJson] using h
      obtain rfl := UnaryOp.label_injective hop
      exact congrArg (unary .nowhere op) (ih he)
    | _ => simp [toJson] at h
  | binary s op l r ihl ihr =>
    cases e' with
    | binary s' op' l' r' =>
      obtain ⟨hop, hl, hr⟩ :
          op.label = op'.label ∧ l.toJson = l'.toJson ∧ r.toJson = r'.toJson := by
        simpa [toJson] using h
      obtain rfl := BinaryOp.label_injective hop
      exact congrArg₂ (binary .nowhere op) (ihl hl) (ihr hr)
    | _ => simp [toJson] at h
  | ifThen s c t ihc iht =>
    cases e' with
    | ifThen s' c' t' =>
      obtain ⟨hc, ht⟩ : c.toJson = c'.toJson ∧ t.toJson = t'.toJson := by simpa [toJson] using h
      exact congrArg₂ (ifThen .nowhere) (ihc hc) (iht ht)
    | _ => simp [toJson] at h
  | ifElse s c t e ihc iht ihe =>
    cases e' with
    | ifElse s' c' t' e' =>
      obtain ⟨hc, ht, he⟩ :
          c.toJson = c'.toJson ∧ t.toJson = t'.toJson ∧ e.toJson = e'.toJson := by
        simpa [toJson] using h
      show ifElse .nowhere c.bare t.bare e.bare = ifElse .nowhere c'.bare t'.bare e'.bare
      rw [ihc hc, iht ht, ihe he]
    | _ => simp [toJson] at h
  | lambda s param body ih =>
    cases e' with
    | lambda s' param' body' =>
      obtain ⟨rfl, hbody⟩ : param = param' ∧ body.toJson = body'.toJson := by
        simpa [toJson] using h
      exact congrArg (lambda .nowhere param) (ih hbody)
    | _ => simp [toJson] at h
  | apply s f a ihf iha =>
    cases e' with
    | apply s' f' a' =>
      obtain ⟨hf, ha⟩ : f.toJson = f'.toJson ∧ a.toJson = a'.toJson := by simpa [toJson] using h
      exact congrArg₂ (apply .nowhere) (ihf hf) (iha ha)
    | _ => simp [toJson] at h

end Expr

/-! ## Statements and programs -/

/-- The statement without its spans. -/
def Stmt.bare (s : Stmt) : Stmt :=
  s.mapSpan fun _ => .nowhere

/-- What is emitted of a statement does not depend on its spans. -/
theorem Stmt.toJson_bare (s : Stmt) : s.bare.toJson = s.toJson := by
  cases s with
  | define span x e =>
    exact congrArg (fun v => Json.node "Define" [("name", .string x), ("value", v)]) e.toJson_bare
  | puts span e => exact congrArg (fun v => Json.node "Puts" [("value", v)]) e.toJson_bare
  | expression e => exact congrArg (fun v => Json.node "Expression" [("value", v)]) e.toJson_bare

/-- Statements that are emitted alike are the same without their spans. -/
theorem Stmt.bare_eq_of_toJson_eq {s s' : Stmt} (h : s.toJson = s'.toJson) : s.bare = s'.bare := by
  cases s with
  | define span x e =>
    cases s' with
    | define span' x' e' =>
      obtain ⟨rfl, he⟩ : x = x' ∧ e.toJson = e'.toJson := by simpa [toJson] using h
      exact congrArg (define .nowhere x) (Expr.bare_eq_of_toJson_eq he)
    | _ => simp [toJson] at h
  | puts span e =>
    cases s' with
    | puts span' e' =>
      have he : e.toJson = e'.toJson := by simpa [toJson] using h
      exact congrArg (puts .nowhere) (Expr.bare_eq_of_toJson_eq he)
    | _ => simp [toJson] at h
  | expression e =>
    cases s' with
    | expression e' =>
      have he : e.toJson = e'.toJson := by simpa [toJson] using h
      exact congrArg expression (Expr.bare_eq_of_toJson_eq he)
    | _ => simp [toJson] at h

namespace Program

/-- The program without its spans. -/
def bare (p : Program) : Program :=
  p.map Stmt.bare

/-- What is emitted of a program does not depend on its spans. -/
theorem toJson_bare (p : Program) : toJson (bare p) = toJson p := by
  unfold toJson bare
  rw [List.map_map]
  exact congrArg (fun vs => Json.object [("statements", .array vs)])
    (List.map_congr_left fun s _ => s.toJson_bare)

/-- Programs that are emitted alike are the same without their spans. -/
theorem bare_eq_of_toJson_eq {p q : Program} (h : toJson p = toJson q) : bare p = bare q := by
  have hstmts : p.map Stmt.toJson = q.map Stmt.toJson := by simpa [toJson] using h
  unfold bare
  induction p generalizing q with
  | nil =>
    obtain rfl := List.map_eq_nil_iff.mp hstmts.symm
    rfl
  | cons s p ih =>
    obtain ⟨s', q, rfl, hs, hq⟩ := List.map_eq_cons_iff.mp hstmts.symm
    rw [List.map_cons, List.map_cons, Stmt.bare_eq_of_toJson_eq hs.symm,
      ih (by rw [toJson, toJson, hq]) hq.symm]

end Program

/-- **The emitted tree determines the program.** Two programs are emitted as the same text exactly
if they are equal up to their spans. -/
theorem emitted_eq_iff_bare_eq (p q : Program) :
    (Program.toJson p).pretty = (Program.toJson q).pretty ↔ Program.bare p = Program.bare q := by
  constructor
  · intro h
    exact Program.bare_eq_of_toJson_eq (Json.pretty_injective h)
  · intro h
    rw [← Program.toJson_bare p, h, Program.toJson_bare q]

end Duet
