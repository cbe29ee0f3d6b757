import Residual.Surface.Dump
import Residual.Typed.Term

/-!
Diagnostic text of types, terms and environments. What a key stands for is looked up by the
given function.
-/

namespace Residual

open Text

def Tag.dump (t : Tag) : String := Dump.call "Tag" [s!"{t}"]

def MapKind.dump : MapKind → String
  | .function x e => Dump.call "Function" [dumpCore x e.dump]
  | .recFunction f x e => Dump.call "RecFunction" [f.dump, dumpCore x e.dump]
  | .module => "Module"

mutual

def Ty.dump (key : Key → String) : Ty → String
  | .prim p => Dump.call "Prim" [p.dump]
  | .list items => Dump.call "List" [Dump.list (Ty.dumps key items)]
  | .lit l => Dump.call "Lit" [l.dump]
  | .map fields kind => Dump.call "Map" [Dump.map (Ty.dumpFields key fields), kind.dump]
  | .layout l env kind => Dump.call "Layout" [l.dump, env.dump key, kind.dump]
  | .closure dom range => Dump.call "Closure" [dom.dump key, range.dump key]
  | .union members => Dump.call "Union" [Dump.list (Ty.dumps key members)]
  | .recur k => Dump.call "Rec" [key k]
  | .array s elem => Dump.call "Array" [s.dump, elem.dump key]
  | .foreign .host parts => Dump.call "HostMacro" [Dump.list (ForeignPart.dumps key parts)]
  | .foreign .accel parts => Dump.call "AccelMacro" [Dump.list (ForeignPart.dumps key parts)]

def Ty.dumps (key : Key → String) : List Ty → List String
  | [] => []
  | t :: rest => t.dump key :: Ty.dumps key rest

def Ty.dumpFields (key : Key → String) : List (Name × Ty) → List (String × String)
  | [] => []
  | (x, t) :: rest => (x.dump, t.dump key) :: Ty.dumpFields key rest

def ForeignPart.dump (key : Key → String) : ForeignPart → String
  | .text s => Dump.call "Text" [Quoted.string s]
  | .type t => Dump.call "Type" [t.dump key]

def ForeignPart.dumps (key : Key → String) : List ForeignPart → List String
  | [] => []
  | p :: rest => p.dump key :: ForeignPart.dumps key rest

def Var.dump (key : Key → String) : Var → String
  | ⟨tag, t⟩ => Dump.record "TyTag" [("tag", Tag.dump tag), ("ty", t.dump key)]

def Var.dumps (key : Key → String) : List Var → List String
  | [] => []
  | v :: rest => v.dump key :: Var.dumps key rest

def Term.dump (key : Key → String) : Term → String
  | .type t => Dump.call "Type" [t.dump key]
  | .var v => Dump.call "Var" [v.dump key]
  | .tuple items => Dump.call "Tuple" [Dump.list (Term.dumps key items)]
  | .map env kind => Dump.call "Map" [env.dump key, kind.dump]
  | .box inner t => Dump.call "Box" [inner.dump key, t.dump key]
  | .lit l => Dump.call "Lit" [l.dump]
  | .letIn bind bound rest trace =>
    Dump.call "Let" [Dump.record "LetNode" [("bind", bind.dump key), ("bound", bound.dump key),
      ("rest", rest.dump key), ("ty", rest.dumpType key), ("trace", trace.dump)]]
  | .state stmt rest trace =>
    Dump.call "State" [Dump.record "StateNode" [("stmt", stmt.dump key), ("rest", rest.dump key),
      ("ty", rest.dumpType key), ("trace", trace.dump)]]
  | .op o args t =>
    Dump.call "Op" [Dump.record "OpNode" [("op", o.dump), ("args", Dump.list (Term.dumps key args)),
      ("ty", t.dump key)]]
  | .call k kind args t =>
    Dump.call "JoinPoint" [Dump.record "JoinPointCall" [("key", key k), ("kind", kind.dump),
      ("args", Dump.list (Var.dumps key args)), ("ty", t.dump key)]]

def Term.dumps (key : Key → String) : List Term → List String
  | [] => []
  | t :: rest => t.dump key :: Term.dumps key rest

/-- The type of a term, dumped. -/
def Term.dumpType (key : Key → String) : Term → String
  | .type t => t.dump key
  | .var ⟨_, t⟩ => t.dump key
  | .tuple items => Dump.call "List" [Dump.list (Term.dumpTypes key items)]
  | .map env kind => Dump.call "Map" [Dump.map (Env.dumpTypes key env), kind.dump]
  | .box _ t => t.dump key
  | .lit l => Dump.call "Prim" [l.type.dump]
  | .letIn _ _ rest _ => rest.dumpType key
  | .state _ rest _ => rest.dumpType key
  | .op _ _ t => t.dump key
  | .call _ _ _ t => t.dump key

def Term.dumpTypes (key : Key → String) : List Term → List String
  | [] => []
  | t :: rest => t.dumpType key :: Term.dumpTypes key rest

def Env.dump (key : Key → String) : Env → String
  | .plain fields => "Plain" ++ Dump.map (Env.dumpFields key (fun _ => true) fields)
  | .restricted fields used => "Unfiltered" ++ Dump.map (Env.dumpFields key used.contains fields)
  | .consed _ fields => "Consed" ++ Dump.map (Env.dumpFields key (fun _ => true) fields)

def Env.dumpFields (key : Key → String) (keep : Name → Bool) :
    List (Name × Term) → List (String × String)
  | [] => []
  | (x, t) :: rest =>
    if keep x then (x.dump, t.dump key) :: Env.dumpFields key keep rest
    else Env.dumpFields key keep rest

def Env.dumpTypes (key : Key → String) : Env → List (String × String)
  | .plain fields => Env.dumpFieldTypes key (fun _ => true) fields
  | .restricted fields used => Env.dumpFieldTypes key used.contains fields
  | .consed _ fields => Env.dumpFieldTypes key (fun _ => true) fields

def Env.dumpFieldTypes (key : Key → String) (keep : Name → Bool) :
    List (Name × Term) → List (String × String)
  | [] => []
  | (x, t) :: rest =>
    if keep x then (x.dump, t.dumpType key) :: Env.dumpFieldTypes key keep rest
    else Env.dumpFieldTypes key keep rest

end

end Residual
