import BlockGraph.Ty

/-!
# Block kinds

A block's kind fixes its sockets and fields when it is made (`Kind.layout`), the types of its
sockets (`Kind.signature`), and into which socket it declares its variable (`Kind.scope?`).
Everything a kind means to the rest of the library is one of these three tables.

A signature is a type scheme: its variables are numbered from zero and stand for variables made
fresh each time the scheme is used.
-/

namespace BlockGraph

inductive Kind where
  | intLiteral
  | floatLiteral
  | boolLiteral
  | intArithmetic
  | floatArithmetic
  | intCompare
  | logicOperation
  | logicNegate
  | logicTernary
  | pairCreate
  | pairFirst
  | pairSecond
  | listEmpty
  | listCons
  | listCreateWith
  | lambda
  | lambdaApp
  | letIn
  | variablesGet
  | printValue
  | repeatTimes
deriving DecidableEq, Inhabited

namespace Kind

def all : List Kind :=
  [intLiteral, floatLiteral, boolLiteral, intArithmetic, floatArithmetic, intCompare,
   logicOperation, logicNegate, logicTernary, pairCreate, pairFirst, pairSecond, listEmpty,
   listCons, listCreateWith, lambda, lambdaApp, letIn, variablesGet, printValue, repeatTimes]

/-- The tag that names a kind in records and events. -/
def tag : Kind → String
  | intLiteral => "int_literal"
  | floatLiteral => "float_literal"
  | boolLiteral => "bool_literal"
  | intArithmetic => "int_arithmetic"
  | floatArithmetic => "float_arithmetic"
  | intCompare => "int_compare"
  | logicOperation => "logic_operation"
  | logicNegate => "logic_negate"
  | logicTernary => "logic_ternary"
  | pairCreate => "pair_create"
  | pairFirst => "pair_first"
  | pairSecond => "pair_second"
  | listEmpty => "list_empty"
  | listCons => "list_cons"
  | listCreateWith => "list_create_with"
  | lambda => "lambda"
  | lambdaApp => "lambda_app"
  | letIn => "let"
  | variablesGet => "variables_get"
  | printValue => "print_value"
  | repeatTimes => "repeat_times"

/-- The name of a kind in one word. -/
def name : Kind → String
  | intLiteral => "IntLiteral"
  | floatLiteral => "FloatLiteral"
  | boolLiteral => "BoolLiteral"
  | intArithmetic => "IntArithmetic"
  | floatArithmetic => "FloatArithmetic"
  | intCompare => "IntCompare"
  | logicOperation => "LogicOperation"
  | logicNegate => "LogicNegate"
  | logicTernary => "LogicTernary"
  | pairCreate => "PairCreate"
  | pairFirst => "PairFirst"
  | pairSecond => "PairSecond"
  | listEmpty => "ListEmpty"
  | listCons => "ListCons"
  | listCreateWith => "ListCreateWith"
  | lambda => "Lambda"
  | lambdaApp => "LambdaApp"
  | letIn => "Let"
  | variablesGet => "VariablesGet"
  | printValue => "PrintValue"
  | repeatTimes => "RepeatTimes"

def ofTag? (tag : String) : Option Kind := all.find? fun k => k.tag == tag

/-- The position of a kind in the list of all. -/
def index (k : Kind) : Nat := all.findIdx (· == k)

end Kind

/-! ## Layouts -/

/-- What an input of a block takes: a value, a stack of statements, or no block at all. -/
inductive InputKind where
  | value
  | statement
  | dummy
deriving DecidableEq, Inhabited

def InputKind.name : InputKind → String
  | value => "Value"
  | statement => "Statement"
  | dummy => "Dummy"

/-- The tags that a connection accepts; `none` accepts everything. -/
abbrev Check := Option (List String)

namespace Kind

/-- A field that blocks of a kind start with. -/
inductive FieldPlan where
  | label (text : String)
  | number (name : String)
  | checkbox (name : String) (value : Bool)
  | dropdown (name : String) (selected : String)
  /-- A field that holds a variable the block declares. -/
  | binder (name : String)
  /-- A field that holds a use of a variable. -/
  | reference (name : String)

structure InputPlan where
  kind : InputKind
  name : String
  check : Check := none
  fields : List FieldPlan := []

/-- How blocks of a kind are joined to a parent. -/
inductive Stem where
  /-- By an output with a nominal check. -/
  | output (check : Check)
  /-- By a previous connection; a next connection carries on the stack. -/
  | statement

structure Layout where
  stem : Stem
  inputs : List InputPlan

/-- The field that holds the variable of a binder or a use. -/
def variableField : String := "VAR"

/-- The name that variables start with. -/
def defaultName : String := "x"

/-- The inputs of a list block that hold its items have names that start so. -/
def itemMark : String := "ADD"

def itemName (i : Nat) : String := itemMark ++ toString i

/-- Two operands of one type with an operator between them. -/
def binary (operand result operator : String) : Layout where
  stem := .output (some [result])
  inputs :=
    [{ kind := .value, name := "A", check := some [operand] },
     { kind := .value, name := "B", check := some [operand],
       fields := [.dropdown "OP" operator] }]

/-- The sockets and fields of a new block. -/
def layout : Kind → Layout
  | intLiteral => ⟨.output (some ["Int"]),
    [{ kind := .dummy, name := "", fields := [.number "NUM"] }]⟩
  | floatLiteral =>
    ⟨.output (some ["Float"]), [{ kind := .dummy, name := "", fields := [.number "NUM"] }]⟩
  | boolLiteral =>
    ⟨.output (some ["Bool"]), [{ kind := .dummy, name := "", fields := [.checkbox "BOOL" true] }]⟩
  | intArithmetic => binary "Int" "Int" "+"
  | floatArithmetic => binary "Float" "Float" "+."
  | intCompare => binary "Int" "Bool" "="
  | logicOperation => binary "Bool" "Bool" "&&"
  | logicNegate =>
    ⟨.output (some ["Bool"]),
      [{ kind := .value, name := "BOOL", check := some ["Bool"], fields := [.label "not"] }]⟩
  | logicTernary =>
    ⟨.output none,
      [{ kind := .value, name := "IF", check := some ["Bool"], fields := [.label "if"] },
       { kind := .value, name := "THEN", fields := [.label "then"] },
       { kind := .value, name := "ELSE", fields := [.label "else"] }]⟩
  | pairCreate =>
    ⟨.output (some ["Pair"]),
      [{ kind := .value, name := "FIRST", fields := [.label "pair"] },
       { kind := .value, name := "SECOND", fields := [.label ","] }]⟩
  | pairFirst =>
    ⟨.output none,
      [{ kind := .value, name := "PAIR", check := some ["Pair"], fields := [.label "first of"] }]⟩
  | pairSecond =>
    ⟨.output none,
      [{ kind := .value, name := "PAIR", check := some ["Pair"], fields := [.label "second of"] }]⟩
  | listEmpty =>
    ⟨.output (some ["List"]), [{ kind := .dummy, name := "", fields := [.label "[]"] }]⟩
  | listCons =>
    ⟨.output (some ["List"]),
      [{ kind := .value, name := "FIRST" },
       { kind := .value, name := "REST", check := some ["List"], fields := [.label "::"] }]⟩
  | listCreateWith =>
    ⟨.output (some ["List"]),
      [{ kind := .dummy, name := "HEAD", fields := [.label "list"] },
       { kind := .value, name := itemName 0 },
       { kind := .value, name := itemName 1 }]⟩
  | lambda =>
    ⟨.output (some [Ty.functionTag]),
      [{ kind := .value, name := "RETURN",
         fields := [.label "fun", .binder variableField, .label "->"] }]⟩
  | lambdaApp =>
    ⟨.output none,
      [{ kind := .value, name := "FUN", check := some [Ty.functionTag] },
       { kind := .value, name := "ARG" }]⟩
  | letIn =>
    ⟨.output none,
      [{ kind := .value, name := "EXP1",
         fields := [.label "let", .binder variableField, .label "="] },
       { kind := .value, name := "EXP2", fields := [.label "in"] }]⟩
  | variablesGet =>
    ⟨.output none, [{ kind := .dummy, name := "", fields := [.reference variableField] }]⟩
  | printValue => ⟨.statement, [{ kind := .value, name := "VALUE", fields := [.label "print"] }]⟩
  | repeatTimes =>
    ⟨.statement,
      [{ kind := .value, name := "TIMES", check := some ["Int"], fields := [.label "repeat"] },
       { kind := .statement, name := "DO", fields := [.label "do"] }]⟩

/-! ## Signatures -/

/-- The types a kind gives to its sockets, as a scheme over `fresh` variables. -/
structure Signature where
  /-- How many variables the scheme is over. -/
  fresh : Nat := 0
  /-- The type of the variable that the block declares. -/
  binder : Option Ty := none
  /-- The type of each named input. -/
  inputs : List (String × Ty) := []
  /-- The type of every item input. -/
  items : Option Ty := none
  output : Option Ty := none

def signature : Kind → Signature
  | intLiteral => { output := some .int }
  | floatLiteral => { output := some .float }
  | boolLiteral => { output := some .bool }
  | intArithmetic => { inputs := [("A", .int), ("B", .int)], output := some .int }
  | floatArithmetic => { inputs := [("A", .float), ("B", .float)], output := some .float }
  | intCompare => { inputs := [("A", .int), ("B", .int)], output := some .bool }
  | logicOperation => { inputs := [("A", .bool), ("B", .bool)], output := some .bool }
  | logicNegate => { inputs := [("BOOL", .bool)], output := some .bool }
  | logicTernary =>
    { fresh := 1, inputs := [("IF", .bool), ("THEN", .var 0), ("ELSE", .var 0)],
      output := some (.var 0) }
  | pairCreate =>
    { fresh := 2, inputs := [("FIRST", .var 0), ("SECOND", .var 1)],
      output := some (.pair (.var 0) (.var 1)) }
  | pairFirst =>
    { fresh := 2, inputs := [("PAIR", .pair (.var 0) (.var 1))], output := some (.var 0) }
  | pairSecond =>
    { fresh := 2, inputs := [("PAIR", .pair (.var 0) (.var 1))], output := some (.var 1) }
  | listEmpty => { fresh := 1, output := some (.list (.var 0)) }
  | listCons =>
    { fresh := 1, inputs := [("FIRST", .var 0), ("REST", .list (.var 0))],
      output := some (.list (.var 0)) }
  | listCreateWith => { fresh := 1, items := some (.var 0), output := some (.list (.var 0)) }
  | lambda =>
    { fresh := 2, binder := some (.var 0), inputs := [("RETURN", .var 1)],
      output := some (.fn (.var 0) (.var 1)) }
  | lambdaApp =>
    { fresh := 2, inputs := [("FUN", .fn (.var 0) (.var 1)), ("ARG", .var 0)],
      output := some (.var 1) }
  | letIn =>
    { fresh := 2, binder := some (.var 0), inputs := [("EXP1", .var 0), ("EXP2", .var 1)],
      output := some (.var 1) }
  | variablesGet => { fresh := 1, output := some (.var 0) }
  | printValue => { fresh := 1, inputs := [("VALUE", .var 0)] }
  | repeatTimes => { inputs := [("TIMES", .int)] }

/-- The input in which the block's variable can be used. -/
def scope? : Kind → Option String
  | lambda => some "RETURN"
  | letIn => some "EXP2"
  | _ => none

end Kind

end BlockGraph
