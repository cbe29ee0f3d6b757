import Residual.Code
import Residual.Name

/-!
Operations of the language, grouped by what they work on. Data that an operation carries, such
as field names and indices, is part of its identity.
-/

namespace Residual

/-- The kinds of join points. Each has its own results, even for equal keys. -/
inductive PointKind where
  | method | closure | type | kernel
deriving DecidableEq, Inhabited

namespace PointKind

def all : List PointKind := [.method, .closure, .type, .kernel]

def name : PointKind → String
  | .method => "method"
  | .closure => "closure"
  | .type => "type"
  | .kernel => "cuda"

def rank : PointKind → Nat
  | .method => 0
  | .closure => 1
  | .type => 2
  | .kernel => 3

end PointKind

/-- The physical form a module or function can be packed into. -/
inductive Layout where
  | stack | packedStack | heap | heapMutable
deriving DecidableEq, Inhabited

namespace Layout

def all : List Layout := [.stack, .packedStack, .heap, .heapMutable]

def name : Layout → String
  | .stack => "stack"
  | .packedStack => "packed_stack"
  | .heap => "heap"
  | .heapMutable => "heap_mut"

def rank : Layout → Nat
  | .stack => 0
  | .packedStack => 1
  | .heap => 2
  | .heapMutable => 3

end Layout

/-- Where the elements of an array live. A reference is an array of one element. -/
inductive Storage where
  | heap | reference | global | shared | local
deriving DecidableEq, Inhabited

namespace Storage

def all : List Storage := [.heap, .reference, .global, .shared, .local]

def name : Storage → String
  | .heap => "array"
  | .reference => "ref"
  | .global => "cuda_global"
  | .shared => "cuda_shared"
  | .local => "cuda_local"

def rank : Storage → Nat
  | .heap => 0
  | .reference => 1
  | .global => 2
  | .shared => 3
  | .local => 4

end Storage

/-- The side on which foreign text is used. -/
inductive Target where
  | host | accel
deriving DecidableEq, Inhabited

def Target.rank : Target → Nat
  | .host => 0
  | .accel => 1

inductive ArithOp where
  | add | sub | mul | div | mod
deriving DecidableEq, Inhabited

inductive CompareOp where
  | lt | le | eq | ne | gt | ge
deriving DecidableEq, Inhabited

inductive BitOp where
  | and | or | xor | shiftLeft | shiftRight
deriving DecidableEq, Inhabited

inductive UnaryOp where
  | neg | not | bitNot | sqrt | log | exp
deriving DecidableEq, Inhabited

/-- Operations on primitive values. `convert` takes a type and a value. -/
inductive PrimOp where
  | arith (op : ArithOp)
  | compare (op : CompareOp)
  | bit (op : BitOp)
  | unary (op : UnaryOp)
  | convert
deriving DecidableEq, Inhabited

inductive TupleOp where
  | lengthEq (n : Nat)
  | lengthGe (n : Nat)
  | index (i : Nat)
  | slice (n : Nat)
deriving DecidableEq

/-- `getField` is the read of one field of a module known only at run time. -/
inductive ModuleOp where
  | create (fields : List Name)
  | extend (fields : List Name)
  | without (fields : List Name)
  | open (field : Name)
  | hasMember (field : Name)
  | map
  | fold
  | getField (field : Name)
deriving DecidableEq

/-- `read` is the read of one captured value of a packed module or function. -/
inductive LayoutOp where
  | pack (layout : Layout)
  | read (i : Nat)
deriving DecidableEq

inductive ArrayOp where
  | create (storage : Storage)
  | length
  | index
  | set
  | refCreate
  | refGet
  | refSet
deriving DecidableEq

inductive TypeOp where
  | get
  | union
  | literal
  | equal
  | foreign (target : Target)
deriving DecidableEq

/-- The join points that a program enters by itself; closures are made from functions. -/
inductive EntryOp where
  | method | type | kernel
deriving DecidableEq, Inhabited

inductive Op where
  | apply
  | cond
  | case
  | annotate
  | dynamize
  | patternMiss
  | errorType
  | entry (op : EntryOp)
  | closure
  | prim (op : PrimOp)
  | tuple (op : TupleOp)
  | module (op : ModuleOp)
  | layout (op : LayoutOp)
  | array (op : ArrayOp)
  | type (op : TypeOp)
  | foreign (target : Target)
deriving DecidableEq

instance : Inhabited Op := ⟨.apply⟩

def EntryOp.kind : EntryOp → PointKind
  | .method => .method
  | .type => .type
  | .kernel => .kernel

namespace Op

/-- Equal applications of the operation may share one result. -/
def isPure : Op → Bool
  | .prim _ => true
  | .tuple (.index _) | .tuple (.slice _) => true
  | .module (.getField _) => true
  | .array .length => true
  | _ => false

def isArith : Op → Bool
  | .prim (.arith _) => true
  | _ => false

def isComparison : Op → Bool
  | .prim (.compare _) => true
  | _ => false

def isBitwise : Op → Bool
  | .prim (.bit _) => true
  | _ => false

def isUnary : Op → Bool
  | .prim (.unary _) => true
  | _ => false

end Op

def ArithOp.name : ArithOp → String
  | .add => "+"
  | .sub => "-"
  | .mul => "*"
  | .div => "/"
  | .mod => "%"

def CompareOp.name : CompareOp → String
  | .lt => "<"
  | .le => "<="
  | .eq => "=="
  | .ne => "!="
  | .gt => ">"
  | .ge => ">="

def BitOp.name : BitOp → String
  | .and => "&&&"
  | .or => "|||"
  | .xor => "^^^"
  | .shiftLeft => "<<<"
  | .shiftRight => ">>>"

def UnaryOp.name : UnaryOp → String
  | .neg => "negate"
  | .not => "not"
  | .bitNot => "bit_not"
  | .sqrt => "sqrt"
  | .log => "log"
  | .exp => "exp"

def PrimOp.name : PrimOp → String
  | .arith op => op.name
  | .compare op => op.name
  | .bit op => op.name
  | .unary op => op.name
  | .convert => "convert"

def TupleOp.name : TupleOp → String
  | .lengthEq _ => "tuple_length_eq"
  | .lengthGe _ => "tuple_length_ge"
  | .index _ => "tuple_index"
  | .slice _ => "tuple_slice"

def ModuleOp.name : ModuleOp → String
  | .create _ => "module_create"
  | .extend _ => "module_with"
  | .without _ => "module_without"
  | .open _ => "module_open"
  | .hasMember _ => "module_has_member"
  | .map => "module_map"
  | .fold => "module_fold"
  | .getField _ => "map_get_field"

def LayoutOp.name : LayoutOp → String
  | .pack _ => "layout_to"
  | .read _ => "layout_index"

def ArrayOp.name : ArrayOp → String
  | .create _ => "array_create"
  | .length => "array_length"
  | .index => "array_index"
  | .set => "array_set"
  | .refCreate => "ref_create"
  | .refGet => "ref_get"
  | .refSet => "ref_set"

def TypeOp.name : TypeOp → String
  | .get => "type_get"
  | .union => "type_union"
  | .literal => "type_lit"
  | .equal => "eq_type"
  | .foreign .host => "type_macro_host"
  | .foreign .accel => "type_macro_accel"

def EntryOp.name : EntryOp → String
  | .method => "join"
  | .type => "join_type"
  | .kernel => "join_cuda"

/-- The short name by which messages refer to the operation. -/
def Op.name : Op → String
  | .apply => "apply"
  | .cond => "if"
  | .case => "case"
  | .annotate => "type_annot"
  | .dynamize => "dyn"
  | .patternMiss => "pattern_miss"
  | .errorType => "error_type"
  | .entry op => op.name
  | .closure => "closure"
  | .prim op => op.name
  | .tuple op => op.name
  | .module op => op.name
  | .layout op => op.name
  | .array op => op.name
  | .type op => op.name
  | .foreign .host => "macro_host"
  | .foreign .accel => "macro_accel"

def ArithOp.all : List ArithOp := [.add, .sub, .mul, .div, .mod]

def CompareOp.all : List CompareOp := [.lt, .le, .eq, .ne, .gt, .ge]

def BitOp.all : List BitOp := [.and, .or, .xor, .shiftLeft, .shiftRight]

def UnaryOp.all : List UnaryOp := [.neg, .not, .bitNot, .sqrt, .log, .exp]

def PrimOp.all : List PrimOp :=
  List.flatten [List.map PrimOp.arith ArithOp.all, List.map PrimOp.compare CompareOp.all,
    List.map PrimOp.bit BitOp.all, List.map PrimOp.unary UnaryOp.all, [PrimOp.convert]]

/-- The operations that carry no data. -/
def Op.plain : List Op :=
  List.flatten [
    [Op.apply, Op.cond, Op.case, Op.annotate, Op.dynamize, Op.patternMiss, Op.errorType],
    List.map Op.entry [EntryOp.method, EntryOp.type, EntryOp.kernel], [Op.closure],
    List.map Op.prim PrimOp.all, List.map Op.module [ModuleOp.map, ModuleOp.fold],
    List.map Op.array [ArrayOp.length, ArrayOp.index, ArrayOp.set, ArrayOp.refCreate,
      ArrayOp.refGet, ArrayOp.refSet],
    List.map Op.type [TypeOp.get, TypeOp.union, TypeOp.literal, TypeOp.equal,
      TypeOp.foreign Target.host, TypeOp.foreign Target.accel],
    [Op.foreign Target.host, Op.foreign Target.accel]]

/-! ### Order -/

def ArithOp.rank : ArithOp → Nat
  | .add => 0
  | .sub => 1
  | .mul => 2
  | .div => 3
  | .mod => 4

def CompareOp.rank : CompareOp → Nat
  | .lt => 0
  | .le => 1
  | .eq => 2
  | .ne => 3
  | .gt => 4
  | .ge => 5

def BitOp.rank : BitOp → Nat
  | .and => 0
  | .or => 1
  | .xor => 2
  | .shiftLeft => 3
  | .shiftRight => 4

def UnaryOp.rank : UnaryOp → Nat
  | .neg => 0
  | .not => 1
  | .bitNot => 2
  | .sqrt => 3
  | .log => 4
  | .exp => 5

def EntryOp.rank : EntryOp → Nat
  | .method => 0
  | .type => 1
  | .kernel => 2

def PrimOp.code : PrimOp → Code
  | .arith op => [0, op.rank]
  | .compare op => [1, op.rank]
  | .bit op => [2, op.rank]
  | .unary op => [3, op.rank]
  | .convert => [4]

def TupleOp.code : TupleOp → Code
  | .lengthEq n => [0, n]
  | .lengthGe n => [1, n]
  | .index i => [2, i]
  | .slice n => [3, n]

def Name.code (x : Name) : Code := Code.nat x.index

def ModuleOp.code : ModuleOp → Code
  | .create fields => 0 :: Code.list Name.code fields
  | .extend fields => 1 :: Code.list Name.code fields
  | .without fields => 2 :: Code.list Name.code fields
  | .open field => 3 :: field.code
  | .hasMember field => 4 :: field.code
  | .map => [5]
  | .fold => [6]
  | .getField field => 7 :: field.code

def LayoutOp.code : LayoutOp → Code
  | .pack layout => [0, layout.rank]
  | .read i => [1, i]

def ArrayOp.code : ArrayOp → Code
  | .create storage => [0, storage.rank]
  | .length => [1]
  | .index => [2]
  | .set => [3]
  | .refCreate => [4]
  | .refGet => [5]
  | .refSet => [6]

def TypeOp.code : TypeOp → Code
  | .get => [0]
  | .union => [1]
  | .literal => [2]
  | .equal => [3]
  | .foreign target => [4, target.rank]

namespace Op

def code : Op → Code
  | .apply => [0]
  | .cond => [1]
  | .case => [2]
  | .annotate => [3]
  | .dynamize => [4]
  | .patternMiss => [5]
  | .errorType => [6]
  | .entry op => [7, op.rank]
  | .closure => [8]
  | .prim op => 9 :: op.code
  | .tuple op => 10 :: op.code
  | .module op => 11 :: op.code
  | .layout op => 12 :: op.code
  | .array op => 13 :: op.code
  | .type op => 14 :: op.code
  | .foreign target => [15, target.rank]

def cmp (a b : Op) : Ordering := Code.cmp a.code b.code

end Op

end Residual
