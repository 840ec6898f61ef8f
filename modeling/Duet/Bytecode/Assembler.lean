import Duet.Bytecode.Compile

/-!
# Compiling in place

An emission says what a tree adds to a block once all is known. The assembler works in place
instead: its state holds the bytes of the block that is being written, those of the blocks around
it, the pool and the scope, and every action changes that state and may fail.

Whatever an action has done before it fails stays done. A jump is first written with the target
`unknownTarget`, and its operand is overwritten when the target is known. A function opens a block
and a scope, and closes both before it looks at whether its body has failed. The arms of a
conditional drop a `pop` from their end, for which a block remembers its last two instructions.
-/

namespace Duet

/-- An instruction that has been written. -/
structure Emitted where
  opcode : Opcode
  position : Nat
deriving DecidableEq, Repr

/-- A block that is being written. -/
structure Block where
  code : Code
  /-- The instruction written last. -/
  last : Option Emitted
  /-- The instruction before it. -/
  previous : Option Emitted
deriving DecidableEq, Repr

namespace Block

/-- The block at its start. -/
def empty : Block := ⟨.empty, none, none⟩

/-- The block with one more instruction. -/
def push (b : Block) (op : Opcode) (operands : List Nat) : Block :=
  ⟨b.code.push op operands, some ⟨op, b.code.size⟩, b.last⟩

/-- The block without the `pop` at its end, if there is one. -/
def dropPop (b : Block) : Block :=
  match b.last with
  | some ⟨.pop, position⟩ => ⟨b.code.truncate position, b.previous, none⟩
  | _ => b

/-- The block with the target of a jump overwritten. -/
def patch (b : Block) (position : Nat) (target : UInt16) : Block :=
  { b with code := (b.code.patch? position target).getD b.code }

end Block

/-- What the assembler has written so far. -/
structure Assembler where
  constants : List Constant
  scope : Scope
  /-- The block that is being written. -/
  active : Block
  /-- The blocks of the functions around it, the innermost first, and the main block. -/
  enclosing : List Block
deriving DecidableEq, Repr

namespace Assembler

/-- The assembler at its start. -/
def start : Assembler := ⟨[], .empty, .empty, []⟩

/-- Where the next instruction will stand. -/
def offset (a : Assembler) : Nat := a.active.code.size

/-- Writes an instruction. -/
def push (a : Assembler) (op : Opcode) (operands : List Nat) : Assembler :=
  { a with active := a.active.push op operands }

/-- Defines a name in the innermost table. -/
def define (a : Assembler) (name : String) : Assembler :=
  { a with scope := a.scope.define name }

/-- Opens a block and a scope. -/
def enter (a : Assembler) : Assembler :=
  { a with scope := a.scope.enclose, active := .empty, enclosing := a.active :: a.enclosing }

/-- Closes the block and the scope that were opened last. -/
def leave (a : Assembler) : Assembler :=
  { a with
    scope := a.scope.leave?.getD .empty
    active := a.enclosing.headD .empty
    enclosing := a.enclosing.tail }

/-- The bytecode of the block that is being written. -/
def bytecode (a : Assembler) : Bytecode :=
  ⟨a.active.code, a.constants.toArray⟩

end Assembler

/-- Changes the assembler and may fail. -/
abbrev Assembly := Assembler → Assembler × Option CompileError

namespace Assembly

/-- Does the one after the other, unless the first fails. -/
def andThen (first second : Assembly) : Assembly := fun a =>
  match first a with
  | (a', some e) => (a', some e)
  | (a', none) => second a'

/-- Does something that depends on where the next instruction will stand. -/
def atOffset (next : Nat → Assembly) : Assembly := fun a => next a.offset a

/-- Fails. -/
def fail (e : CompileError) : Assembly := fun a => (a, some e)

/-- Writes an instruction. -/
def emit (op : Opcode) (operands : List Nat) : Assembly := fun a => (a.push op operands, none)

/-- Drops a `pop` from the end of the block. -/
def dropPop : Assembly := fun a => ({ a with active := a.active.dropPop }, none)

/-- Lets the jump at a position go to the end of the block. -/
def patchJump (position : Nat) (span : Span) : Assembly := fun a =>
  if maxTarget < a.offset then (a, some (.blockTooLarge a.offset span))
  else ({ a with active := a.active.patch position a.offset.toUInt16 }, none)

/-- Adds a constant to the pool and loads it. -/
def constant (c : Constant) (span : Span) : Assembly := fun a =>
  if a.constants.length < maxSlots then
    emit .constant [a.constants.length] { a with constants := a.constants ++ [c] }
  else (a, some (.tooManyConstants span))

/-- Writes the two arms of a conditional whose condition has just been written. -/
def branches (span : Span) (consequence alternative : Assembly) : Assembly :=
  atOffset fun first =>
    (emit .jumpIfNotTrue [unknownTarget.toNat]).andThen <|
    consequence.andThen <|
    atOffset fun second =>
      (emit .jump [unknownTarget.toNat]).andThen <|
      (patchJump first span).andThen <|
      alternative.andThen <|
      patchJump second span

/-- Writes a function in a block of its own, and loads it. -/
def function (span : Span) (param : String) (body : Assembly) : Assembly := fun a =>
  let (inside, error) := body (a.enter.define param)
  let done := inside.push .return_ []
  match error with
  | some e => (done.leave, some e)
  | none => constant (.function done.active.code) span done.leave

/-- Stores the value of a global that has just been defined. -/
def store (span : Span) (name : String) (slot : Nat) : Assembly :=
  if slot < maxSlots then emit .setGlobal [slot] else fail (.tooManyGlobals name span)

/-- Writes the instruction that reads a name. -/
def name (x : String) (span : Span) : Assembly := fun a =>
  match a.scope.resolve? x with
  | none => fail (.unresolvedName x span) a
  | some ⟨.global, i⟩ => emit .getGlobal [i] a
  | some ⟨.local_, i⟩ => emit .getLocal [i] a
  | some ⟨.free, _⟩ => fail (.capturedVariable x span) a

end Assembly

/-- Writes an expression. -/
def Expr.assemble : Expr → Assembly
  | .integer s value => .constant (.integer value) s
  | .text s value => .fail (.unsupportedExpression (Expr.text s value).kindName s)
  | .boolean _ true => .emit .true_ []
  | .boolean _ false => .emit .false_ []
  | .nil _ => .emit .nil []
  | .name s x => .name x s
  | .unary _ op e => e.assemble.andThen (.emit op.instr.opcode [])
  | .binary s op l r =>
    match op.instr? with
    | none => .fail (.unsupportedOperator op s)
    | some i => l.assemble.andThen (r.assemble.andThen (.emit i.opcode []))
  | .ifThen s c t =>
    c.assemble.andThen (.branches s (t.assemble.andThen .dropPop) (.emit .nil []))
  | .ifElse s c t e =>
    c.assemble.andThen
      (.branches s (t.assemble.andThen .dropPop) (e.assemble.andThen .dropPop))
  | .lambda s param body => .function s param body.assemble
  | .apply _ f x => x.assemble.andThen (f.assemble.andThen (.emit .call []))

/-- Writes a statement. A function is written with its own name defined, any other value before
its name is. -/
def Stmt.assemble : Stmt → Assembly
  | .define span name value => fun a =>
    if value.isLambda then
      value.assemble.andThen (.store span name a.scope.next.index) (a.define name)
    else
      value.assemble.andThen
        (fun b => Assembly.store span name b.scope.next.index (b.define name)) a
  | .puts _ value | .expression value => value.assemble.andThen (.emit .pop [])

/-- Writes statements up to the first error. -/
def Program.assemble : Program → Assembly
  | [] => fun a => (a, none)
  | stmt :: stmts => stmt.assemble.andThen (Program.assemble stmts)

/-- Goes through programs one after the other, whether they fail or not. -/
def Assembler.compileAll (a : Assembler) (programs : List Program) : Assembler :=
  programs.foldl (fun a p => (Program.assemble p a).1) a

end Duet
