import Residual.Surface.Expr
import Residual.Text.Dump

/-!
Diagnostic text of names, positions, literals, operations, expressions and patterns.
-/

namespace Residual

open Text

def Name.dump (x : Name) : String := Dump.call "Name" [s!"{x.index}"]

def Name.dumps (xs : List Name) : String := Dump.list (xs.map Name.dump)

def LineCol.dump (p : LineCol) : String :=
  Dump.record "LineCol" [("line", s!"{p.line}"), ("col", s!"{p.col}")]

def Span.dump (s : Span) : String :=
  Dump.record "PosKey"
    [("module", s.module.dump), ("start", s.start.dump), ("end", s.stop.dump)]

def Trace.dump (t : Trace) : String := Dump.list (t.positions.map Span.dump)

def IntTy.dump : IntTy → String
  | .i8 => "Int8"
  | .i16 => "Int16"
  | .i32 => "Int32"
  | .i64 => "Int64"
  | .u8 => "UInt8"
  | .u16 => "UInt16"
  | .u32 => "UInt32"
  | .u64 => "UInt64"

def Prim.dump : Prim → String
  | .int t => t.dump
  | .float .f32 => "Float32"
  | .float .f64 => "Float64"
  | .bool => "Bool"
  | .string => "String"
  | .char => "Char"

def Literal.dump (l : Literal) : String :=
  Dump.call l.type.dump [match l with
    | .int _ v _ => s!"{v}"
    | .float32 a => s!"{a.toNat}"
    | .float64 a => s!"{a.toNat}"
    | .bool b => if b then "true" else "false"
    | .string s => Quoted.string s
    | .char c => Quoted.char c]

def PointKind.dump : PointKind → String
  | .method => "Method"
  | .closure => "Closure"
  | .type => "Type"
  | .kernel => "Cuda"

def Layout.dump : Layout → String
  | .stack => "Stack"
  | .packedStack => "PackedStack"
  | .heap => "Heap"
  | .heapMutable => "HeapMutable"

def Storage.dump : Storage → String
  | .heap => "Heap"
  | .reference => "Reference"
  | .global => "CudaGlobal"
  | .shared => "CudaShared"
  | .local => "CudaLocal"

def PrimOp.dump : PrimOp → String
  | .arith .add => "Add"
  | .arith .sub => "Sub"
  | .arith .mul => "Mult"
  | .arith .div => "Div"
  | .arith .mod => "Mod"
  | .compare .lt => "LT"
  | .compare .le => "LTE"
  | .compare .eq => "EQ"
  | .compare .ne => "NEQ"
  | .compare .gt => "GT"
  | .compare .ge => "GTE"
  | .bit .and => "BitAnd"
  | .bit .or => "BitOr"
  | .bit .xor => "BitXor"
  | .bit .shiftLeft => "ShiftLeft"
  | .bit .shiftRight => "ShiftRight"
  | .unary .neg => "Neg"
  | .unary .not => "Not"
  | .unary .bitNot => "BitNot"
  | .unary .sqrt => "Sqrt"
  | .unary .log => "Log"
  | .unary .exp => "Exp"
  | .convert => "Convert"

def Op.dump : Op → String
  | .apply => "Apply"
  | .cond => "If"
  | .case => "Case"
  | .annotate => "TypeAnnot"
  | .dynamize => "Dynamize"
  | .patternMiss => "PatternMiss"
  | .errorType => "ErrorType"
  | .entry .method => "JoinPointEntryMethod"
  | .entry .type => "JoinPointEntryType"
  | .entry .kernel => "JoinPointEntryCuda"
  | .closure => "ClosureCreate"
  | .prim op => op.dump
  | .tuple (.lengthEq n) => Dump.call "TupleLengthEq" [s!"{n}"]
  | .tuple (.lengthGe n) => Dump.call "TupleLengthGe" [s!"{n}"]
  | .tuple (.index i) => Dump.call "TupleIndex" [s!"{i}"]
  | .tuple (.slice n) => Dump.call "TupleSlice" [s!"{n}"]
  | .module (.create xs) => Dump.call "ModuleCreate" [Name.dumps xs]
  | .module (.extend xs) => Dump.call "ModuleWith" [Name.dumps xs]
  | .module (.without xs) => Dump.call "ModuleWithout" [Name.dumps xs]
  | .module (.open x) => Dump.call "ModuleOpen" [x.dump]
  | .module (.hasMember x) => Dump.call "ModuleHasMember" [x.dump]
  | .module .map => "ModuleMap"
  | .module .fold => "ModuleFold"
  | .module (.getField x) => Dump.call "MapGetField" [x.dump]
  | .layout (.pack l) => Dump.call "LayoutTo" [l.dump]
  | .layout (.read i) => Dump.call "LayoutIndex" [s!"{i}"]
  | .array (.create s) => Dump.call "ArrayCreate" [s.dump]
  | .array .length => "ArrayLength"
  | .array .index => "ArrayIndex"
  | .array .set => "ArraySet"
  | .array .refCreate => "ReferenceCreate"
  | .array .refGet => "ReferenceGet"
  | .array .refSet => "ReferenceSet"
  | .type .get => "TypeGet"
  | .type .union => "TypeUnion"
  | .type .literal => "TypeLitCreate"
  | .type .equal => "EqType"
  | .type (.foreign .host) => "TypeMacroHost"
  | .type (.foreign .accel) => "TypeMacroAccel"
  | .foreign .host => "MacroHost"
  | .foreign .accel => "MacroAccel"

/-- A function by its parameter and its dumped body. -/
def dumpCore (param : Name) (body : String) : String :=
  Dump.record "FunctionCore" [("param", param.dump), ("body", body)]

mutual

def Expr.dump : Expr → String
  | .node symbol kind => Dump.node symbol kind.dump

def ExprKind.dump : ExprKind → String
  | .var x => Dump.call "Var" [x.dump]
  | .lit l => Dump.call "Lit" [l.dump]
  | .pattern p => Dump.call "Pattern" [p.dump]
  | .function x e => Dump.call "Function" [dumpCore x e.dump]
  | .filtered used x e => Dump.call "FunctionFilt" [Name.dumps used, dumpCore x e.dump]
  | .recFunction f x e => Dump.call "RecFunction" [f.dump, dumpCore x e.dump]
  | .tuple items => Dump.call "Tuple" [Dump.list (Expr.dumps items)]
  | .op o args => Dump.call "Op" [o.dump, Dump.list (Expr.dumps args)]
  | .pos span e => Dump.call "Pos" [Dump.record "Pos" [("value", e.dump), ("key", span.dump)]]

def Expr.dumps : List Expr → List String
  | [] => []
  | e :: rest => e.dump :: Expr.dumps rest

def Pattern.dump : Pattern → String
  | .node symbol kind => Dump.node symbol kind.dump

def PatternKind.dump : PatternKind → String
  | .wildcard => "Wildcard"
  | .var x => Dump.call "Var" [x.dump]
  | .lit l => Dump.call "Lit" [l.dump]
  | .tuple ps => Dump.call "Tuple" [Dump.list (Pattern.dumps ps)]
  | .cons ps p => Dump.call "Cons" [Dump.list (Pattern.dumps ps), p.dump]
  | .typeEq p e => Dump.call "TypeEq" [p.dump, e.dump]
  | .active e p => Dump.call "Active" [e.dump, p.dump]
  | .partialActive e p => Dump.call "PartialActive" [e.dump, p.dump]
  | .extension e p => Dump.call "ExtensionActive" [e.dump, p.dump]
  | .or ps => Dump.call "Or" [Dump.list (Pattern.dumps ps)]
  | .and ps => Dump.call "And" [Dump.list (Pattern.dumps ps)]
  | .guarded p e => Dump.call "When" [p.dump, e.dump]
  | .module m => Dump.call "Module" [m.dump]
  | .clauses arms => Dump.call "Clauses" [Dump.list (Clause.dumps arms)]

def Pattern.dumps : List Pattern → List String
  | [] => []
  | p :: rest => p.dump :: Pattern.dumps rest

def ModulePattern.dump : ModulePattern → String
  | .member f x => Dump.record "Member" [("field", f.dump), ("bind", x.dump)]
  | .inner f p => Dump.record "Inner" [("field", f.dump), ("pattern", p.dump)]
  | .and ms => Dump.call "And" [Dump.list (ModulePattern.dumps ms)]
  | .or ms => Dump.call "Or" [Dump.list (ModulePattern.dumps ms)]
  | .xor a b => Dump.call "Xor" [a.dump, b.dump]
  | .not m => Dump.call "Not" [m.dump]

def ModulePattern.dumps : List ModulePattern → List String
  | [] => []
  | m :: rest => m.dump :: ModulePattern.dumps rest

def Clause.dump : Clause → String
  | .mk p e => Dump.record "Clause" [("pattern", p.dump), ("body", e.dump)]

def Clause.dumps : List Clause → List String
  | [] => []
  | c :: rest => c.dump :: Clause.dumps rest

end

end Residual
