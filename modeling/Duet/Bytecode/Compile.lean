import Duet.Bytecode.Listing
import Duet.Scope
import Duet.Tree.Basic

/-!
# From syntax trees to bytecode

Compiling an expression emits a fragment of code for one block, and the constants that it adds
to the pool. What a fragment holds depends on where it will stand, because jumps have absolute
targets, and on how many constants there are already: an `Emission` is a function of these two
numbers. Emissions are joined by `andThen`, which hands on the offset and the pool size.

An error ends a fragment, but what was emitted before it stays: a session that goes on after an
error shows that code and those constants. A jump whose target is not yet known at that time
keeps the target `unknownTarget`.

Functions have one parameter, see the globals besides, and nothing else. Their code goes to the
pool. Texts and the operators `and` and `or` have no code.
-/

namespace Duet

/-- The number of constants and of globals that a one-byte operand can tell apart. -/
def maxSlots : Nat := 256

/-- The largest target of a jump. -/
def maxTarget : Nat := 65535

/-- The target of a jump before its real target is known. -/
def unknownTarget : UInt16 := 0xffff

/-- Why a program cannot be compiled. -/
inductive CompileError where
  | unresolvedName (name : String) (span : Span)
  | unsupportedOperator (op : BinaryOp) (span : Span)
  | unsupportedExpression (kind : String) (span : Span)
  | capturedVariable (name : String) (span : Span)
  | tooManyConstants (span : Span)
  | tooManyGlobals (name : String) (span : Span)
  | blockTooLarge (target : Nat) (span : Span)
deriving DecidableEq, Repr

namespace CompileError

/-- The catalogue code of an error. -/
def code : CompileError → String
  | .unresolvedName .. => "MAL-C001"
  | .unsupportedOperator .. => "MAL-C002"
  | .unsupportedExpression .. => "MAL-C003"
  | .capturedVariable .. => "MAL-C004"
  | .tooManyConstants .. => "MAL-C005"
  | .tooManyGlobals .. => "MAL-C006"
  | .blockTooLarge .. => "MAL-C007"

/-- The part of the source that is at fault. -/
def span : CompileError → Span
  | .unresolvedName _ s | .unsupportedOperator _ s | .unsupportedExpression _ s
  | .capturedVariable _ s | .tooManyConstants s | .tooManyGlobals _ s | .blockTooLarge _ s => s

/-- The text of an error. -/
def message : CompileError → String
  | .unresolvedName name _ => "unresolved identifier: " ++ name
  | .unsupportedOperator op _ =>
    "operator '" ++ op.symbol ++ "' has no bytecode; run with the evaluator instead"
  | .unsupportedExpression kind _ => kind ++ " has no bytecode; run with the evaluator instead"
  | .capturedVariable name _ =>
    "'" ++ name ++ "' is a parameter of an enclosing function; functions cannot capture variables"
  | .tooManyConstants _ => "constant pool is full (" ++ toString maxSlots ++ " entries)"
  | .tooManyGlobals name _ =>
    "global slots exhausted (" ++ toString maxSlots ++ " definitions) at '" ++ name ++ "'"
  | .blockTooLarge target _ => "jump target " ++ toString target ++ " does not fit in 16 bits"

end CompileError

/-- What compiling something adds to a block and to the pool, up to the first error. -/
structure Fragment where
  code : List Instr
  constants : List Constant
  error : Option CompileError
deriving DecidableEq, Repr

/-- A fragment as it depends on the offset at which it will stand in its block and on the number
of constants before it. -/
abbrev Emission := (offset pool : Nat) → Fragment

namespace Emission

/-- Emits one instruction. -/
def instr (i : Instr) : Emission := fun _ _ => ⟨[i], [], none⟩

/-- Emits nothing but an error. -/
def fail (e : CompileError) : Emission := fun _ _ => ⟨[], [], some e⟩

/-- Emits the one after the other, unless the first fails. -/
def andThen (first second : Emission) : Emission := fun offset pool =>
  let f := first offset pool
  match f.error with
  | some _ => f
  | none =>
    let g := second (offset + codeSize f.code) (pool + f.constants.length)
    ⟨f.code ++ g.code, f.constants ++ g.constants, g.error⟩

/-- Adds a constant to the pool and emits the instruction that loads it. -/
def constant (c : Constant) (span : Span) : Emission := fun _ pool =>
  if pool < maxSlots then ⟨[.constant pool.toUInt8], [c], none⟩
  else ⟨[], [], some (.tooManyConstants span)⟩

/-- Emits the two arms of a conditional whose condition has just been emitted. Both jumps go
forward: the first to the start of the second arm, the second past its end. -/
def branches (span : Span) (consequence alternative : Emission) : Emission := fun offset pool =>
  let f := consequence (offset + 3) pool
  match f.error with
  | some e => ⟨.jumpIfNotTrue unknownTarget :: f.code, f.constants, some e⟩
  | none =>
    let start := offset + 3 + codeSize f.code + 3
    if maxTarget < start then
      ⟨.jumpIfNotTrue unknownTarget :: f.code ++ [.jump unknownTarget], f.constants,
        some (.blockTooLarge start span)⟩
    else
      let g := alternative start (pool + f.constants.length)
      let arms (target : UInt16) (error : Option CompileError) : Fragment :=
        ⟨.jumpIfNotTrue start.toUInt16 :: f.code ++ .jump target :: g.code,
          f.constants ++ g.constants, error⟩
      match g.error with
      | some e => arms unknownTarget (some e)
      | none =>
        let stop := start + codeSize g.code
        if maxTarget < stop then arms unknownTarget (some (.blockTooLarge stop span))
        else arms stop.toUInt16 none

/-- Emits a function with the given body: its code becomes a constant, after those of the body,
and is loaded. -/
def function (span : Span) (body : Emission) : Emission := fun offset pool =>
  let f := body 0 pool
  match f.error with
  | some e => ⟨[], f.constants, some e⟩
  | none =>
    let g := constant (.function (.ofInstrs (f.code ++ [.return_]))) span offset
      (pool + f.constants.length)
    ⟨g.code, f.constants ++ g.constants, g.error⟩

end Emission

/-- The instruction of a unary operator. -/
def UnaryOp.instr : UnaryOp → Instr
  | .not => .not
  | .negate => .negate

/-- The instruction of a binary operator that has one. -/
def BinaryOp.instr? : BinaryOp → Option Instr
  | .arith op => some (.arith op)
  | .equals => some .equal
  | .notEquals => some .notEqual
  | .and | .or => none

/-- Emits the instruction that reads a name. -/
def Scope.emitName (scope : Scope) (name : String) (span : Span) : Emission :=
  match scope.resolve? name with
  | none => .fail (.unresolvedName name span)
  | some ⟨.global, i⟩ => .instr (.getGlobal i.toUInt8)
  | some ⟨.local_, i⟩ => .instr (.getLocal i.toUInt8)
  | some ⟨.free, _⟩ => .fail (.capturedVariable name span)

/-- Emits an expression, which leaves one value on the stack. -/
def Expr.emit (scope : Scope) : Expr → Emission
  | .integer s value => .constant (.integer value) s
  | .text s value => .fail (.unsupportedExpression (Expr.text s value).kindName s)
  | .boolean _ value => .instr (.boolean value)
  | .nil _ => .instr .nil
  | .name s x => scope.emitName x s
  | .unary _ op e => (e.emit scope).andThen (.instr op.instr)
  | .binary s op l r =>
    match op.instr? with
    | none => .fail (.unsupportedOperator op s)
    | some i => (l.emit scope).andThen ((r.emit scope).andThen (.instr i))
  | .ifThen s c t => (c.emit scope).andThen (.branches s (t.emit scope) (.instr .nil))
  | .ifElse s c t e => (c.emit scope).andThen (.branches s (t.emit scope) (e.emit scope))
  | .lambda s param body => .function s (body.emit (scope.enclose.define param))
  | .apply _ f a => (a.emit scope).andThen ((f.emit scope).andThen (.instr .call))

/-- Whether an expression is a function as it stands. -/
def Expr.isLambda : Expr → Bool
  | .lambda .. => true
  | _ => false

/-- Emits a definition: a value and its storing. A function sees its own name, so it can call
itself; any other value is compiled before the name is defined. The scope that comes back holds
the name unless the error came before its definition. -/
def emitDefine (span : Span) (name : String) (value : Expr) (scope : Scope) (offset pool : Nat) :
    Fragment × Scope :=
  let slot := scope.next.index
  let defined := scope.define name
  let visible := if value.isLambda then defined else scope
  let f := value.emit visible offset pool
  match f.error with
  | some _ => (f, visible)
  | none =>
    if slot < maxSlots then (⟨f.code ++ [.setGlobal slot.toUInt8], f.constants, none⟩, defined)
    else (⟨f.code, f.constants, some (.tooManyGlobals name span)⟩, defined)

/-- Emits a statement, which leaves the stack as it was. -/
def Stmt.emit (stmt : Stmt) (scope : Scope) (offset pool : Nat) : Fragment × Scope :=
  match stmt with
  | .define span name value => emitDefine span name value scope offset pool
  | .puts _ value | .expression value =>
    ((value.emit scope).andThen (.instr .pop) offset pool, scope)

/-- Emits statements up to the first error. -/
def Program.emit : Program → Scope → (offset pool : Nat) → Fragment × Scope
  | [], scope, _, _ => (⟨[], [], none⟩, scope)
  | stmt :: stmts, scope, offset, pool =>
    let (f, scope) := stmt.emit scope offset pool
    match f.error with
    | some _ => (f, scope)
    | none =>
      let (g, scope) :=
        Program.emit stmts scope (offset + codeSize f.code) (pool + f.constants.length)
      (⟨f.code ++ g.code, f.constants ++ g.constants, g.error⟩, scope)

/-! ## Sessions -/

/-- What has been compiled so far, error or not. -/
structure Session where
  code : List Instr
  constants : List Constant
  scope : Scope
deriving DecidableEq, Repr

namespace Session

/-- The session at its start. -/
def start : Session := ⟨[], [], .empty⟩

/-- Compiles one more program after what is there. -/
def compile (s : Session) (p : Program) : Session × Option CompileError :=
  let (f, scope) := Program.emit p s.scope (codeSize s.code) s.constants.length
  (⟨s.code ++ f.code, s.constants ++ f.constants, scope⟩, f.error)

/-- The bytecode of what has been compiled. -/
def bytecode (s : Session) : Bytecode :=
  ⟨.ofInstrs s.code, s.constants.toArray⟩

end Session

/-- The bytecode of a program, or the first error. -/
def compile (p : Program) : Except CompileError Bytecode :=
  match Session.start.compile p with
  | (s, none) => .ok s.bytecode
  | (_, some e) => .error e

/-- The bytecode of an expression, which leaves its value on the stack. -/
def compileExpr (e : Expr) : Except CompileError Bytecode :=
  let f := e.emit .empty 0 0
  match f.error with
  | none => .ok ⟨.ofInstrs f.code, f.constants.toArray⟩
  | some err => .error err

end Duet
