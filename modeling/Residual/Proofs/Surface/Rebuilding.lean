import Residual.Proofs.Surface.Building
import Residual.Proofs.Surface.Moved

/-!
Work on a store with other source positions.

Work does the same with other positions: `Moves f b act act'` says that `act'`, from the moved
store, comes to the result that `b` makes of the one of `act`, and to the moved store. Main
statement: lowering a pattern, listing free names and making a program ready all do so.
-/

namespace Residual.Build

variable {f : Span → Span} {α β γ δ : Type}

/-- Where `act` has a result and leaves a store, `act'` has the image of the result and leaves the
moved store, from a store that was moved before. -/
def Moves (f : Span → Span) (b : α → β) (act : Build α) (act' : Build β) : Prop :=
  ∀ st : Store, act'.run (st.moved f) = (b (act.run st).1, (act.run st).2.moved f)

namespace Moves

protected lemma pure {b : α → β} {a : α} {a' : β} (h : a' = b a) :
    Moves f b (Pure.pure a) (Pure.pure a') :=
  fun st => by subst h; rfl

protected lemma bind {b : α → β} {c : γ → δ} {act : Build α} {act' : Build β}
    {next : α → Build γ} {next' : β → Build δ} (ha : Moves f b act act')
    (hn : ∀ a, Moves f c (next a) (next' (b a))) : Moves f c (act >>= next) (act' >>= next') := by
  intro st
  rw [StateT.run_bind, StateT.run_bind, ha st]
  exact hn (act.run st).1 (act.run st).2

/-- Work whose result is kept: it is looked up, or worked out and recorded. -/
theorem memo {b : α → β} {act work : Build α} {act' work' : Build β}
    (hwork : Moves f b work work') (found : Store → Option α) (found' : Store → Option β)
    (record : α → Store → Store) (record' : β → Store → Store)
    (hhit : ∀ st a, found st = some a → act.run st = (a, st))
    (hmiss : ∀ st, found st = none →
      act.run st = ((work.run st).1, record (work.run st).1 (work.run st).2))
    (hhit' : ∀ st a, found' st = some a → act'.run st = (a, st))
    (hmiss' : ∀ st, found' st = none →
      act'.run st = ((work'.run st).1, record' (work'.run st).1 (work'.run st).2))
    (hfound : ∀ st, found' (st.moved f) = (found st).map b)
    (hrecord : ∀ a st, record' (b a) (st.moved f) = (record a st).moved f) :
    Moves f b act act' := by
  intro st
  have hst := hfound st
  cases hf : found st with
  | some a =>
    rw [hf] at hst
    rw [hhit st a hf, hhit' _ _ hst]
  | none =>
    rw [hf] at hst
    rw [hmiss st hf, hmiss' _ hst, hwork st, hrecord]

end Moves

/-- Work on names and numbers alone. -/
theorem moves_name (s : String) : Moves f id (name s) (name s) := fun _ => rfl

lemma moves_fresh (hint : String) : Moves f id (fresh hint) (fresh hint) := fun _ => rfl

lemma moves_expr (kind : ExprKind) :
    Moves f (Expr.moved f) (expr kind) (expr (kind.moved f)) := by
  intro st
  have h := Interner.intern_map (ExprKind.beq_moved f) st.exprs kind
  change ((Expr.node ((st.exprs.map (ExprKind.moved f)).intern (kind.moved f)).1.symbol
      ((st.exprs.map (ExprKind.moved f)).intern (kind.moved f)).1.value,
    { st.moved f with
      exprs := ((st.exprs.map (ExprKind.moved f)).intern (kind.moved f)).2 }) : Expr × Store) = _
  rw [h]
  rfl

lemma moves_pattern (kind : PatternKind) :
    Moves f (Pattern.moved f) (pattern kind) (pattern (kind.moved f)) := by
  intro st
  have h := Interner.intern_map (PatternKind.beq_moved f) st.patterns kind
  change ((Pattern.node ((st.patterns.map (PatternKind.moved f)).intern (kind.moved f)).1.symbol
      ((st.patterns.map (PatternKind.moved f)).intern (kind.moved f)).1.value,
    { st.moved f with
      patterns := ((st.patterns.map (PatternKind.moved f)).intern (kind.moved f)).2 }) :
    Pattern × Store) = _
  rw [h]
  rfl

/-- Both sides make an expression, the second one the moved one. -/
abbrev MovesExpr (f : Span → Span) (act act' : Build Expr) : Prop :=
  Moves f (Expr.moved f) act act'

lemma moves_var (x : Name) : MovesExpr f (var x) (var x) := moves_expr (.var x)

lemma moves_lit (l : Literal) : MovesExpr f (lit l) (lit l) := moves_expr (.lit l)

lemma moves_function (x : Name) (body : Expr) :
    MovesExpr f (function x body) (function x (body.moved f)) :=
  moves_expr (.function x body)

lemma moves_tuple (items : List Expr) :
    MovesExpr f (tuple items) (tuple (items.map (Expr.moved f))) := by
  have h := moves_expr (f := f) (.tuple items)
  rwa [ExprKind.moved, Expr.movedAll_eq] at h

lemma moves_op (o : Op) (args : List Expr) :
    MovesExpr f (op o args) (op o (args.map (Expr.moved f))) := by
  have h := moves_expr (f := f) (.op o args)
  rwa [ExprKind.moved, Expr.movedAll_eq] at h

lemma moves_apply (e arg : Expr) :
    MovesExpr f (apply e arg) (apply (e.moved f) (arg.moved f)) :=
  moves_op .apply [e, arg]

lemma moves_letIn (x : Name) (bound rest : Expr) :
    MovesExpr f (letIn x bound rest) (letIn x (bound.moved f) (rest.moved f)) :=
  (moves_function x rest).bind fun e => moves_apply e bound

lemma moves_cond (test yes no : Expr) :
    MovesExpr f (cond test yes no) (cond (test.moved f) (yes.moved f) (no.moved f)) :=
  moves_op .cond [test, yes, no]

lemma moves_thunk (body : Expr) : MovesExpr f (thunk body) (thunk (body.moved f)) :=
  (moves_fresh "_").bind fun x => moves_function x body

lemma moves_force (x : Name) : MovesExpr f (force x) (force x) :=
  (moves_var x).bind fun e => (moves_tuple []).bind fun unit => moves_apply e unit

/-! ### Lowering -/

lemma moves_withFailure {failure : Expr} {build build' : Expr → Build Expr}
    (h : ∀ call, MovesExpr f (build call) (build' (call.moved f))) :
    MovesExpr f (withFailure failure build) (withFailure (failure.moved f) build') :=
  (moves_fresh "fail").bind fun k => (moves_thunk failure).bind fun thunk =>
    (moves_force k).bind fun call => (h call).bind fun body => moves_letIn k thunk body

lemma moves_splitting {v : Name} {p : Pattern} {lower lower' : Name → Build Expr}
    (h : ∀ x, MovesExpr f (lower x) (lower' x)) :
    MovesExpr f (splitting v p lower) (splitting v (p.moved f) lower') := by
  unfold splitting
  rw [Pattern.inspects_moved]
  split
  · exact (moves_fresh "part").bind fun part => (h part).bind fun body =>
      (moves_function part body).bind fun e => (moves_var v).bind fun value =>
      moves_op .case [value, e]
  · exact h v

mutual

lemma moves_lowerAt (v : Name) (p : Pattern) (succ fail : Expr) :
    MovesExpr f (lowerAt v p succ fail) (lowerAt v (p.moved f) (succ.moved f) (fail.moved f)) := by
  match p with
  | .node _ kind => exact moves_lowerKind v kind succ fail
termination_by structural p

lemma moves_lowerKind (v : Name) (kind : PatternKind) (succ fail : Expr) :
    MovesExpr f (lowerKind v kind succ fail)
      (lowerKind v (kind.moved f) (succ.moved f) (fail.moved f)) := by
  -- Lowering puts no position anywhere, so it does the same on moved patterns.
  match kind with
  | .wildcard => exact .pure rfl
  | .var x => exact (moves_var v).bind fun value => moves_letIn x value succ
  | .lit l =>
    exact (moves_var v).bind fun value => (moves_lit l).bind fun expected =>
      (moves_op _ [value, expected]).bind fun sameType =>
      (moves_op _ [value, expected]).bind fun sameValue =>
      (moves_cond sameValue succ fail).bind fun inner => moves_cond sameType inner fail
  | .tuple items =>
    rw [PatternKind.moved, Pattern.movedAll_eq, lowerKind, lowerKind, List.length_map]
    exact (moves_lowerElements v 0 items succ fail).bind fun matched =>
      (moves_var v).bind fun value => (moves_op _ [value]).bind fun check =>
      moves_cond check matched fail
  | .cons items rest =>
    rw [PatternKind.moved, Pattern.movedAll_eq, lowerKind, lowerKind, List.length_map]
    exact (moves_fresh "rest").bind fun others =>
      (moves_splitting fun x => moves_lowerAt x rest succ fail).bind fun restMatch =>
      (moves_var v).bind fun value => (moves_op _ [value]).bind fun slice =>
      (moves_letIn others slice restMatch).bind fun withRest =>
      (moves_lowerElements v 0 items withRest fail).bind fun matched =>
      (moves_op _ [value]).bind fun check => moves_cond check matched fail
  | .typeEq inner type =>
    exact (moves_splitting fun x => moves_lowerAt x inner succ fail).bind fun matched =>
      (moves_var v).bind fun value => (moves_op _ [value, type]).bind fun check =>
      moves_cond check matched fail
  | .active e inner =>
    exact (moves_fresh "active").bind fun result =>
      (moves_splitting fun x => moves_lowerAt x inner succ fail).bind fun matched =>
      (moves_var v).bind fun value => (moves_apply e value).bind fun call =>
      moves_letIn result call matched
  | .partialActive e inner =>
    exact (moves_fresh "partial").bind fun result => (moves_fresh "payload").bind fun payload =>
      (moves_splitting fun x => moves_lowerAt x inner succ fail).bind fun matched =>
      (moves_var result).bind fun answer => (moves_op _ [answer]).bind fun second =>
      (moves_letIn payload second matched).bind fun bound =>
      (moves_op _ [answer]).bind fun flag => (moves_cond flag bound fail).bind fun branch =>
      (moves_var v).bind fun value => (moves_apply e value).bind fun call =>
      moves_letIn result call branch
  | .extension e inner =>
    exact (moves_splitting fun x => moves_lowerAt x inner succ fail).bind fun matched =>
      (moves_var v).bind fun value => (moves_apply e value).bind fun check =>
      moves_cond check matched fail
  | .or alternatives =>
    have h := moves_lowerAlternatives v alternatives succ fail
    simpa [lowerKind, PatternKind.moved] using h
  | .and parts =>
    have h := moves_lowerParts v parts succ fail
    simpa [lowerKind, PatternKind.moved] using h
  | .guarded inner guard =>
    exact (moves_cond guard succ fail).bind fun guarded =>
      moves_splitting fun x => moves_lowerAt x inner guarded fail
  | .module m => exact moves_lowerModule v m succ fail
  | .clauses arms =>
    have h := moves_lowerArms v arms succ fail
    simpa [lowerKind, PatternKind.moved] using h
termination_by structural kind

lemma moves_lowerAlternatives (v : Name) (ps : List Pattern) (succ fail : Expr) :
    MovesExpr f (lowerAlternatives v ps succ fail)
      (lowerAlternatives v (ps.map (Pattern.moved f)) (succ.moved f) (fail.moved f)) := by
  match ps with
  | [] => exact .pure rfl
  | p :: rest =>
    exact (moves_lowerAlternatives v rest succ fail).bind fun later =>
      moves_withFailure fun next => moves_splitting fun x => moves_lowerAt x p succ next
termination_by structural ps

lemma moves_lowerArms (v : Name) (arms : List Clause) (succ fail : Expr) :
    MovesExpr f (lowerArms v arms succ fail)
      (lowerArms v (arms.map (Clause.moved f)) (succ.moved f) (fail.moved f)) := by
  match arms with
  | [] => exact .pure rfl
  | .mk p body :: rest =>
    exact (moves_lowerArms v rest succ fail).bind fun later =>
      moves_withFailure fun next => moves_splitting fun x => moves_lowerAt x p succ next
termination_by structural arms

lemma moves_lowerParts (v : Name) (ps : List Pattern) (succ fail : Expr) :
    MovesExpr f (lowerParts v ps succ fail)
      (lowerParts v (ps.map (Pattern.moved f)) (succ.moved f) (fail.moved f)) := by
  match ps with
  | [] => exact .pure rfl
  | p :: rest =>
    exact (moves_lowerParts v rest succ fail).bind fun later =>
      moves_splitting fun x => moves_lowerAt x p later fail
termination_by structural ps

lemma moves_lowerElements (v : Name) (i : Nat) (ps : List Pattern) (succ fail : Expr) :
    MovesExpr f (lowerElements v i ps succ fail)
      (lowerElements v i (ps.map (Pattern.moved f)) (succ.moved f) (fail.moved f)) := by
  match ps with
  | [] => exact .pure rfl
  | p :: rest =>
    exact (moves_lowerElements v (i + 1) rest succ fail).bind fun later =>
      (moves_fresh "elem").bind fun element =>
      (moves_splitting fun x => moves_lowerAt x p later fail).bind fun matched =>
      (moves_var v).bind fun value => (moves_op _ [value]).bind fun index =>
      moves_letIn element index matched
termination_by structural ps

lemma moves_lowerModule (v : Name) (m : ModulePattern) (succ fail : Expr) :
    MovesExpr f (lowerModule v m succ fail)
      (lowerModule v (m.moved f) (succ.moved f) (fail.moved f)) := by
  match m with
  | .member field bind =>
    exact (moves_var v).bind fun value => (moves_op _ [value]).bind fun has =>
      (moves_op _ [value]).bind fun opened => (moves_letIn bind opened succ).bind fun bound =>
      moves_cond has bound fail
  | .inner field p =>
    exact (moves_fresh "field").bind fun inner =>
      (moves_splitting fun x => moves_lowerAt x p succ fail).bind fun matched =>
      (moves_var v).bind fun value => (moves_op _ [value]).bind fun has =>
      (moves_op _ [value]).bind fun opened => (moves_letIn inner opened matched).bind fun bound =>
      moves_cond has bound fail
  | .and parts =>
    have h := moves_lowerModules v parts succ fail
    simpa [lowerModule, ModulePattern.moved] using h
  | .or alternatives =>
    have h := moves_lowerModuleAlternatives v alternatives succ fail
    simpa [lowerModule, ModulePattern.moved] using h
  -- A negated pattern runs with the exits swapped; so does the second copy of an exclusive one.
  | .not inner =>
    exact (moves_fresh "not").bind fun s => (moves_thunk succ).bind fun thunk =>
      (moves_force s).bind fun call => (moves_lowerModule v inner fail call).bind fun body =>
      moves_letIn s thunk body
  | .xor a b =>
    refine (moves_fresh "xor_fail").bind fun k => (moves_thunk fail).bind fun failThunk =>
      (moves_force k).bind fun callFail => (moves_lowerModule v b succ callFail).bind
      fun onlyB => (moves_withFailure fun tryB => ?_).bind fun body =>
      moves_letIn k failThunk body
    exact (moves_fresh "xor_ok").bind fun s => (moves_thunk succ).bind fun okThunk =>
      (moves_force s).bind fun callOk => (moves_force k).bind fun callFail =>
      (moves_lowerModule v b callFail callOk).bind fun bMustFail =>
      (moves_letIn s okThunk bMustFail).bind fun afterA => moves_lowerModule v a afterA tryB
termination_by structural m

lemma moves_lowerModules (v : Name) (ms : List ModulePattern) (succ fail : Expr) :
    MovesExpr f (lowerModules v ms succ fail)
      (lowerModules v (ms.map (ModulePattern.moved f)) (succ.moved f) (fail.moved f)) := by
  match ms with
  | [] => exact .pure rfl
  | m :: rest =>
    exact (moves_lowerModules v rest succ fail).bind fun later => moves_lowerModule v m later fail
termination_by structural ms

lemma moves_lowerModuleAlternatives (v : Name) (ms : List ModulePattern) (succ fail : Expr) :
    MovesExpr f (lowerModuleAlternatives v ms succ fail)
      (lowerModuleAlternatives v (ms.map (ModulePattern.moved f)) (succ.moved f)
        (fail.moved f)) := by
  match ms with
  | [] => exact .pure rfl
  | m :: rest =>
    exact (moves_lowerModuleAlternatives v rest succ fail).bind fun later =>
      moves_withFailure fun next => moves_lowerModule v m succ next
termination_by structural ms

end

lemma moves_lowerClauses (v : Name) (miss : Expr) (arms : List Clause) :
    MovesExpr f (lowerClauses v miss arms)
      (lowerClauses v (miss.moved f) (arms.map (Clause.moved f))) := by
  induction arms with
  | nil => exact .pure rfl
  | cons arm rest ih =>
    obtain ⟨p, body⟩ := arm
    exact ih.bind fun later => moves_withFailure fun fail => moves_lowerAt v p body fail

lemma moves_clausesOf (p : Pattern) :
    Moves f (List.map (Clause.moved f)) (clausesOf p) (clausesOf (p.moved f)) := by
  have hdefault : Moves f (List.map (Clause.moved f)) (do
      let yes ← lit (.bool true)
      let no ← lit (.bool false)
      let wildcard ← pattern .wildcard
      return [.mk p yes, .mk wildcard no]) (do
      let yes ← lit (.bool true)
      let no ← lit (.bool false)
      let wildcard ← pattern .wildcard
      return [.mk (p.moved f) yes, .mk wildcard no]) :=
    (moves_lit _).bind fun yes => (moves_lit _).bind fun no => (moves_pattern .wildcard).bind
      fun wildcard => .pure rfl
  obtain ⟨symbol, kind⟩ := p
  cases kind with
  | clauses arms => exact .pure (Clause.movedAll_eq f arms)
  | _ => exact hdefault

lemma moves_lowerTop (p : Pattern) : MovesExpr f (lowerTop p) (lowerTop (p.moved f)) := by
  refine (moves_clausesOf p).bind fun arms => (moves_fresh "arg").bind fun arg => ?_
  refine (moves_fresh "scrutinee").bind fun scrutinee => (moves_var scrutinee).bind fun missed =>
    (moves_op .patternMiss [missed]).bind fun miss => ?_
  refine (moves_lowerClauses scrutinee miss arms).bind fun body => ?_
  exact (moves_function scrutinee body).bind fun inner => (moves_var arg).bind fun value =>
    (moves_op .case [value, inner]).bind fun split => moves_function arg split

lemma moves_lowerPattern (p : Pattern) :
    MovesExpr f (lowerPattern p) (lowerPattern (p.moved f)) := by
  refine (moves_lowerTop p).memo (fun st => st.lowered.lookup p.symbol)
    (fun st => st.lowered.lookup (p.moved f).symbol)
    (fun e st => { st with lowered := (p.symbol, e) :: st.lowered })
    (fun e st => { st with lowered := ((p.moved f).symbol, e) :: st.lowered })
    (fun st e => run_lowerPattern_of_hit) (fun st => run_lowerPattern_of_miss)
    (fun st e => run_lowerPattern_of_hit) (fun st => run_lowerPattern_of_miss)
    (fun st => ?_) fun e st => ?_
  · rw [Pattern.symbol_moved]
    exact lookup_map _ _ _
  · rw [Pattern.symbol_moved]
    rfl

/-! ### Free names -/

section FreeNames

variable {unfold unfold' : Pattern → Build (List Name)}

mutual

lemma moves_freeNamesWith (hu : ∀ p : Pattern, Moves f id (unfold p) (unfold' (p.moved f)))
    (e : Expr) : Moves f id (freeNamesWith unfold e) (freeNamesWith unfold' (e.moved f)) := by
  match e with
  | .node symbol kind =>
    exact (moves_freeNamesOfKind hu kind).memo (fun st => st.freeNames.lookup symbol)
      (fun st => st.freeNames.lookup symbol)
      (fun names st => { st with freeNames := (symbol, names) :: st.freeNames })
      (fun names st => { st with freeNames := (symbol, names) :: st.freeNames })
      (fun st names => run_freeNamesWith_of_hit) (fun st => run_freeNamesWith_of_miss)
      (fun st names => run_freeNamesWith_of_hit) (fun st => run_freeNamesWith_of_miss)
      (fun st => Option.map_id.symm ▸ rfl) fun _ _ => rfl
termination_by structural e

lemma moves_freeNamesOfKind (hu : ∀ p : Pattern, Moves f id (unfold p) (unfold' (p.moved f)))
    (kind : ExprKind) :
    Moves f id (freeNamesOfKind unfold kind) (freeNamesOfKind unfold' (kind.moved f)) := by
  match kind with
  | .var x => exact .pure rfl
  | .lit _ => exact .pure rfl
  | .pattern p => exact hu p
  | .function _ body => exact (moves_freeNamesWith hu body).bind fun names => .pure rfl
  | .filtered _ _ body => exact (moves_freeNamesWith hu body).bind fun names => .pure rfl
  | .recFunction _ _ body => exact (moves_freeNamesWith hu body).bind fun names => .pure rfl
  | .tuple items =>
    have h := moves_freeNamesOfAll hu [] items
    simpa [freeNamesOfKind, ExprKind.moved] using h
  | .op _ args =>
    have h := moves_freeNamesOfAll hu [] args
    simpa [freeNamesOfKind, ExprKind.moved] using h
  | .pos _ e => exact moves_freeNamesWith hu e
termination_by structural kind

lemma moves_freeNamesOfAll (hu : ∀ p : Pattern, Moves f id (unfold p) (unfold' (p.moved f)))
    (out : List Name) (es : List Expr) :
    Moves f id (freeNamesOfAll unfold out es)
      (freeNamesOfAll unfold' out (es.map (Expr.moved f))) := by
  match es with
  | [] => exact .pure rfl
  | e :: rest =>
    exact (moves_freeNamesWith hu e).bind fun names => moves_freeNamesOfAll hu _ rest
termination_by structural es

end

end FreeNames

lemma moves_freeNamesTo (depth : Nat) (e : Expr) :
    Moves f id (freeNamesTo depth e) (freeNamesTo depth (e.moved f)) := by
  induction depth generalizing e with
  | zero => exact moves_freeNamesWith (fun _ => .pure rfl) e
  | succ depth ih =>
    exact moves_freeNamesWith (fun p => (moves_lowerPattern p).bind fun e => ih e) e

lemma moves_freeNames (e : Expr) : Moves f id (freeNames e) (freeNames (e.moved f)) := by
  intro st
  have hsize : (st.moved f).patterns.size = st.patterns.size := Interner.size_map _ _
  change (freeNamesTo ((st.moved f).patterns.size + 1) (e.moved f)).run (st.moved f) = _
  rw [hsize]
  exact moves_freeNamesTo (st.patterns.size + 1) e st

lemma moves_freeNameSet (e : Expr) : Moves f id (freeNameSet e) (freeNameSet (e.moved f)) :=
  (moves_freeNames e).bind fun _ => .pure rfl

/-! ### Filtering -/

section Filter

variable {unfold unfold' : Pattern → Build Expr}

mutual

lemma moves_filterWith (hu : ∀ p : Pattern, MovesExpr f (unfold p) (unfold' (p.moved f)))
    (e : Expr) : MovesExpr f (filterWith unfold e) (filterWith unfold' (e.moved f)) := by
  match e with
  | .node symbol kind =>
    exact (moves_filterKind hu symbol kind).memo (fun st => st.filtered.lookup symbol)
      (fun st => st.filtered.lookup symbol)
      (fun done st => { st with filtered := (symbol, done) :: st.filtered })
      (fun done st => { st with filtered := (symbol, done) :: st.filtered })
      (fun st done => run_filterWith_of_hit) (fun st => run_filterWith_of_miss)
      (fun st done => run_filterWith_of_hit) (fun st => run_filterWith_of_miss)
      (fun st => lookup_map _ _ _) fun _ _ => rfl
termination_by structural e

lemma moves_filterKind (hu : ∀ p : Pattern, MovesExpr f (unfold p) (unfold' (p.moved f)))
    (symbol : Nat) (kind : ExprKind) :
    MovesExpr f (filterKind unfold symbol kind) (filterKind unfold' symbol (kind.moved f)) := by
  match kind with
  | .var x => exact .pure rfl
  | .lit l => exact .pure rfl
  | .pattern p => exact hu p
  | .function param body =>
    exact (moves_freeNameSet (.node symbol (.function param body))).bind fun used =>
      (moves_filterWith hu body).bind fun body => moves_expr (.filtered used param body)
  | .filtered listed param body =>
    exact (moves_freeNameSet (.node symbol (.filtered listed param body))).bind fun used =>
      (moves_filterWith hu body).bind fun body => moves_expr (.filtered used param body)
  | .recFunction this param body =>
    exact (moves_filterWith hu body).bind fun body => moves_expr (.recFunction this param body)
  | .tuple items =>
    have h := (moves_filterAll hu items).bind fun items => moves_tuple items
    simpa [filterKind, ExprKind.moved] using h
  | .op o args =>
    have h := (moves_filterAll hu args).bind fun args => moves_op o args
    simpa [filterKind, ExprKind.moved] using h
  | .pos span e => exact (moves_filterWith hu e).bind fun e => moves_expr (.pos span e)
termination_by structural kind

lemma moves_filterAll (hu : ∀ p : Pattern, MovesExpr f (unfold p) (unfold' (p.moved f)))
    (es : List Expr) :
    Moves f (List.map (Expr.moved f)) (filterAll unfold es)
      (filterAll unfold' (es.map (Expr.moved f))) := by
  match es with
  | [] => exact .pure rfl
  | e :: rest =>
    exact (moves_filterWith hu e).bind fun first => (moves_filterAll hu rest).bind
      fun rest => .pure rfl
termination_by structural es

end

end Filter

lemma moves_filterTo (depth : Nat) (e : Expr) :
    MovesExpr f (filterTo depth e) (filterTo depth (e.moved f)) := by
  induction depth generalizing e with
  | zero => exact moves_filterWith (fun p => moves_expr (.pattern p)) e
  | succ depth ih =>
    exact moves_filterWith (fun p => (moves_lowerPattern p).bind fun e => ih e) e

lemma moves_filter (e : Expr) : MovesExpr f (filter e) (filter (e.moved f)) := by
  intro st
  have hsize : (st.moved f).patterns.size = st.patterns.size := Interner.size_map _ _
  change (filterTo ((st.moved f).patterns.size + 1) (e.moved f)).run (st.moved f) = _
  rw [hsize]
  exact moves_filterTo (st.patterns.size + 1) e st

end Residual.Build
