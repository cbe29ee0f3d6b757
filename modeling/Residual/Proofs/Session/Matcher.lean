import Residual.Eval.Tuple
import Residual.Proofs.Surface.TakenNames

/-!
Matching a value against a pattern, without code.

`match?` looks at the value and gives what the variables of the pattern are bound to, from left to
right. It speaks of simple patterns only, in which no code decides whether they match.
-/

namespace Residual

/-! ### Values that are known now -/

/-- The value is put together from literals, type literals, tuples and modules. -/
inductive Term.Static : Term → Prop
  | lit (l : Literal) : Term.Static (.lit l)
  | typeLit (l : Literal) : Term.Static (.type (.lit l))
  | tuple {items : List Term} (h : ∀ t ∈ items, Term.Static t) : Term.Static (.tuple items)
  | module {env : Env} (h : ∀ x t, env.get? x = some t → Term.Static t) :
    Term.Static (.map env .module)

namespace Term

def elements? : Term → Option (List Term)
  | .tuple items => some items
  | _ => none

def member? (t : Term) (x : Name) : Option Term :=
  match t with
  | .map env _ => env.get? x
  | _ => none

variable {t : Term}

lemma elements?_eq_some {items : List Term} (h : t.elements? = some items) :
    t = .tuple items := by
  cases t <;> cases h
  rfl

lemma allStatic_of_forall {ts : List Term} (h : ∀ t ∈ ts, t.isStatic = true) :
    allStatic ts = true := by
  induction ts with
  | nil => rfl
  | cons t rest ih =>
    obtain ⟨ht, hrest⟩ := List.forall_mem_cons.1 h
    rw [allStatic, ht, ih hrest, Bool.and_self]

lemma Static.isStatic (h : t.Static) : t.isStatic = true := by
  induction h with
  | lit | typeLit | module => rfl
  | tuple _ ih => exact allStatic_of_forall ih

lemma Static.element (h : t.Static) {items : List Term} (ht : t.elements? = some items) :
    ∀ s ∈ items, s.Static := by
  cases h with
  | tuple h => exact Option.some.inj ht ▸ h
  | _ => cases ht

lemma Static.member (h : t.Static) {x : Name} {s : Term} (ht : t.member? x = some s) :
    s.Static := by
  cases h with
  | module h => exact h x s ht
  | _ => cases ht

end Term

/-! ### The matcher -/

/-- What the variables of a pattern are bound to, the last one last. -/
abbrev Found := List (Name × Term)

/-- Both match, one after the other. -/
def Found.both (first later : Option Found) : Option Found :=
  first.bind fun bs => later.map (bs ++ ·)

/-- One of two matches, and the other does not. -/
def Found.one : Option Found → Option Found → Option Found
  | some bs, none => some bs
  | none, some bs => some bs
  | _, _ => none

mutual

def Pattern.match? (t : Term) : Pattern → Option Found
  | .node _ kind => kind.match? t

def PatternKind.match? (t : Term) : PatternKind → Option Found
  | .wildcard => some []
  | .var x => some [(x, t)]
  | .lit l =>
    match t with
    | .lit m => if m = l then some [] else none
    | _ => none
  | .tuple ps => t.elements?.bind fun items =>
    if items.length = ps.length then Pattern.matchEach? items ps else none
  | .cons ps rest => t.elements?.bind fun items =>
    if ps.length ≤ items.length then
      Found.both (Pattern.matchEach? items ps) (rest.match? (.tuple (items.drop ps.length)))
    else none
  | .or ps => Pattern.matchFirst? t ps
  | .and ps => Pattern.matchAll? t ps
  | .module m => m.match? t
  | .clauses arms => Clause.matchFirst? t arms
  | .typeEq _ _ | .active _ _ | .partialActive _ _ | .extension _ _ | .guarded _ _ => none

/-- Each element matches its pattern. -/
def Pattern.matchEach? (items : List Term) : List Pattern → Option Found
  | [] => some []
  | p :: rest =>
    Found.both (items.head?.bind fun t => p.match? t) (Pattern.matchEach? items.tail rest)

/-- The first pattern that matches counts. -/
def Pattern.matchFirst? (t : Term) : List Pattern → Option Found
  | [] => none
  | p :: rest => (p.match? t).or (Pattern.matchFirst? t rest)

def Pattern.matchAll? (t : Term) : List Pattern → Option Found
  | [] => some []
  | p :: rest => Found.both (p.match? t) (Pattern.matchAll? t rest)

/-- The bodies of clauses inside a pattern do not count. -/
def Clause.matchFirst? (t : Term) : List Clause → Option Found
  | [] => none
  | .mk p _ :: rest => (p.match? t).or (Clause.matchFirst? t rest)

def ModulePattern.match? (t : Term) : ModulePattern → Option Found
  | .member x bind => (t.member? x).map fun value => [(bind, value)]
  | .inner x p => (t.member? x).bind fun value => p.match? value
  | .and ms => ModulePattern.matchAll? t ms
  | .or ms => ModulePattern.matchFirst? t ms
  | .xor a b => Found.one (a.match? t) (b.match? t)
  | .not m => if (m.match? t).isNone then some [] else none

def ModulePattern.matchAll? (t : Term) : List ModulePattern → Option Found
  | [] => some []
  | m :: rest => Found.both (m.match? t) (ModulePattern.matchAll? t rest)

def ModulePattern.matchFirst? (t : Term) : List ModulePattern → Option Found
  | [] => none
  | m :: rest => (m.match? t).or (ModulePattern.matchFirst? t rest)

end

/-- The first clause whose pattern matches, with what its variables are bound to. -/
def Clause.first? (t : Term) (arms : List Clause) : Option (Clause × Found) :=
  arms.findSome? fun arm => (arm.pattern.match? t).map fun bs => (arm, bs)

/-! ### Simple patterns -/

mutual

/-- No code inside the pattern decides whether it matches, its literals are no floating-point
numbers, and its variables are names of the program. -/
def Pattern.Simple (t : Names) : Pattern → Prop
  | .node _ kind => kind.Simple t

def PatternKind.Simple (t : Names) : PatternKind → Prop
  | .wildcard => True
  | .var x => ¬ t.Generated x
  | .lit l => l.type.isFloat = false
  | .tuple ps | .or ps | .and ps => Pattern.AllSimple t ps
  | .cons ps rest => Pattern.AllSimple t ps ∧ rest.Simple t
  | .module m => m.Simple t
  | .clauses arms => Clause.AllSimple t arms
  | .typeEq _ _ | .active _ _ | .partialActive _ _ | .extension _ _ | .guarded _ _ => False

def Pattern.AllSimple (t : Names) : List Pattern → Prop
  | [] => True
  | p :: rest => p.Simple t ∧ Pattern.AllSimple t rest

def Clause.AllSimple (t : Names) : List Clause → Prop
  | [] => True
  | .mk p _ :: rest => p.Simple t ∧ Clause.AllSimple t rest

def ModulePattern.Simple (t : Names) : ModulePattern → Prop
  | .member _ bind => ¬ t.Generated bind
  | .inner _ p => p.Simple t
  | .and ms | .or ms => ModulePattern.AllSimple t ms
  | .xor a b => a.Simple t ∧ b.Simple t
  | .not m => m.Simple t

def ModulePattern.AllSimple (t : Names) : List ModulePattern → Prop
  | [] => True
  | m :: rest => m.Simple t ∧ ModulePattern.AllSimple t rest

end

variable {t : Names} {x : Name} {F : Expr → Prop}

mutual

/-- Only what follows the match takes names from the surroundings of a simple pattern. -/
theorem Pattern.Simple.takes (p : Pattern) {S : Prop} (hp : p.Simple t) (h : p.Takes x F S) :
    S := by
  match p with
  | .node _ kind => exact PatternKind.Simple.takes kind hp h
termination_by structural p

lemma PatternKind.Simple.takes (kind : PatternKind) {S : Prop} (hk : kind.Simple t)
    (h : kind.Takes x F S) : S := by
  match kind with
  | .wildcard | .lit _ => exact h
  | .var _ => exact h.2
  | .tuple ps | .and ps => exact Pattern.AllSimple.takes ps hk h
  | .cons ps rest => exact Pattern.Simple.takes rest hk.2 (Pattern.AllSimple.takes ps hk.1 h)
  | .or ps => exact Pattern.AllSimple.takes_any ps hk h
  | .module m => exact ModulePattern.Simple.takes m hk h
  | .clauses arms => exact Clause.AllSimple.takes_any arms hk h
  | .typeEq _ _ | .active _ _ | .partialActive _ _ | .extension _ _ | .guarded _ _ => exact hk.elim
termination_by structural kind

lemma Pattern.AllSimple.takes (ps : List Pattern) {S : Prop} (hp : Pattern.AllSimple t ps)
    (h : Pattern.AllTake x F S ps) : S := by
  match ps with
  | [] => exact h
  | p :: rest => exact Pattern.AllSimple.takes rest hp.2 (Pattern.Simple.takes p hp.1 h)
termination_by structural ps

lemma Pattern.AllSimple.takes_any (ps : List Pattern) {S : Prop} (hp : Pattern.AllSimple t ps)
    (h : Pattern.AnyTakes x F S ps) : S := by
  match ps with
  | [] => exact h.elim
  | p :: rest =>
    exact h.elim (Pattern.Simple.takes p hp.1) (Pattern.AllSimple.takes_any rest hp.2)
termination_by structural ps

lemma Clause.AllSimple.takes_any (arms : List Clause) {S : Prop} (ha : Clause.AllSimple t arms)
    (h : Clause.AnyTakes x F S arms) : S := by
  match arms with
  | [] => exact h.elim
  | .mk p _ :: rest =>
    exact h.elim (Pattern.Simple.takes p ha.1) (Clause.AllSimple.takes_any rest ha.2)
termination_by structural arms

lemma ModulePattern.Simple.takes (m : ModulePattern) {S : Prop} (hm : m.Simple t)
    (h : m.Takes x F S) : S := by
  match m with
  | .member _ _ => exact h.2
  | .inner _ p => exact Pattern.Simple.takes p hm h
  | .and ms => exact ModulePattern.AllSimple.takes ms hm h
  | .or ms => exact ModulePattern.AllSimple.takes_any ms hm h
  | .xor a b =>
    exact h.elim (ModulePattern.Simple.takes a hm.1) (ModulePattern.Simple.takes b hm.2)
  | .not m => exact h.elim (fun h => (ModulePattern.Simple.takes m hm h).elim) id
termination_by structural m

lemma ModulePattern.AllSimple.takes (ms : List ModulePattern) {S : Prop}
    (hm : ModulePattern.AllSimple t ms) (h : ModulePattern.AllTake x F S ms) : S := by
  match ms with
  | [] => exact h
  | m :: rest =>
    exact ModulePattern.AllSimple.takes rest hm.2 (ModulePattern.Simple.takes m hm.1 h)
termination_by structural ms

lemma ModulePattern.AllSimple.takes_any (ms : List ModulePattern) {S : Prop}
    (hm : ModulePattern.AllSimple t ms) (h : ModulePattern.AnyTakes x F S ms) : S := by
  match ms with
  | [] => exact h.elim
  | m :: rest =>
    exact h.elim (ModulePattern.Simple.takes m hm.1) (ModulePattern.AllSimple.takes_any rest hm.2)
termination_by structural ms

end

end Residual
