import Residual.Proofs.Eval.Admission
import Residual.Proofs.Eval.Coupling

/-!
The laws of a coupling, and what follows for single steps.

A coupling has to say of a few steps that they keep runs coupled: drawing variables, binding code,
emission, packing, and entering captured values. Captured values have to be admitted before they are
packed or entered; the second of the two runs checks that, and ends where they are not.
-/

namespace Residual

lemma Stmt.endsInMiss_close (stmts : List Stmt) (t : Term) :
    (close stmts t).endsInMiss = t.endsInMiss := by
  induction stmts with
  | nil => rfl
  | cons s rest ih =>
    rw [close_cons]
    cases s <;> exact ih

/-! ### Values of coupled runs -/

namespace Runs

open Region (lax)

variable {p q : Runs}

/-- Akin values that are in order. -/
structure Same (p : Runs) (a b : Term) : Prop where
  kin : p.Kin a b
  left : lax.Value p.left a
  right : lax.Value p.right b

/-- Twin types that are in order. -/
structure SameTy (p : Runs) (s t : Ty) : Prop where
  twin : p.Tys s t
  left : lax.Shape p.left s
  right : lax.Shape p.right t

/-- Bindings of the same names to akin values that are in order. -/
abbrev SameFields (p : Runs) : Fields Term → Fields Term → Prop :=
  List.Forall₂ fun d e => d.1 = e.1 ∧ p.Same d.2 e.2

/-- Arguments of closures with one name and twin types. -/
abbrev SameArg (p : Runs) (a a' : Eval.ClosureArg) : Prop :=
  a.name = a'.name ∧ p.SameTy a.dom a'.dom

lemma Same.mono {a b : Term} (h : p.Same a b) (hq : p.Later q) : q.Same a b :=
  ⟨hq.kin h.kin, h.left.mono hq.left, h.right.mono hq.right⟩

lemma SameTy.mono {s t : Ty} (h : p.SameTy s t) (hq : p.Later q) : q.SameTy s t :=
  ⟨hq.tys h.twin, h.left.mono hq.left, h.right.mono hq.right⟩

lemma SameFields.mono {m n : Fields Term} (h : p.SameFields m n) (hq : p.Later q) :
    q.SameFields m n :=
  h.imp fun _ _ h => ⟨h.1, h.2.mono hq⟩

lemma Same.all_mono {as bs : List Term} (h : List.Forall₂ p.Same as bs) (hq : p.Later q) :
    List.Forall₂ q.Same as bs :=
  h.imp fun _ _ h => h.mono hq

lemma Same.ty {a b : Term} (h : p.Same a b) : p.SameTy a.ty b.ty :=
  ⟨h.kin.ty, h.left.ty, h.right.ty⟩

lemma Same.kins {as bs : List Term} (h : List.Forall₂ p.Same as bs) :
    List.Forall₂ p.Kin as bs :=
  h.imp fun _ _ h => h.kin

lemma Same.lefts {as bs : List Term} (h : List.Forall₂ p.Same as bs) :
    ∀ t ∈ as, lax.Value p.left t := by
  induction h with
  | nil => exact fun _ ht => absurd ht List.not_mem_nil
  | cons h _ ih => exact List.forall_mem_cons.2 ⟨h.left, ih⟩

lemma Same.rights {as bs : List Term} (h : List.Forall₂ p.Same as bs) :
    ∀ t ∈ bs, lax.Value p.right t := by
  induction h with
  | nil => exact fun _ ht => absurd ht List.not_mem_nil
  | cons h _ ih => exact List.forall_mem_cons.2 ⟨h.right, ih⟩

lemma SameFields.kin {m n : Fields Term} (h : p.SameFields m n) : p.KinFields m n :=
  h.imp fun _ _ h => ⟨h.1, h.2.kin⟩

lemma SameFields.names {m n : Fields Term} (h : p.SameFields m n) :
    n.map Prod.fst = m.map Prod.fst := by
  induction h with
  | nil => rfl
  | cons h _ ih => rw [List.map_cons, List.map_cons, ih, h.1]

lemma SameFields.lefts {m n : Fields Term} (h : p.SameFields m n) :
    ∀ e ∈ m, lax.Value p.left e.2 := by
  induction h with
  | nil => exact fun _ he => absurd he List.not_mem_nil
  | cons h _ ih => exact List.forall_mem_cons.2 ⟨h.2.left, ih⟩

lemma SameFields.rights {m n : Fields Term} (h : p.SameFields m n) :
    ∀ e ∈ n, lax.Value p.right e.2 := by
  induction h with
  | nil => exact fun _ he => absurd he List.not_mem_nil
  | cons h _ ih => exact List.forall_mem_cons.2 ⟨h.2.right, ih⟩

/-- Types that are in order are compared alike. -/
theorem SameTy.beq {s t s' t' : Ty} (h : p.SameTy s s') (k : p.SameTy t t') :
    (s == t) = (s' == t') :=
  Ty.beq_of_canon h.left.sound k.left.sound h.right.sound k.right.sound h.twin.same k.twin.same

/-- The code may be evaluated in the two environments: they are akin, or the code is listed and
they agree on its free names. -/
structure Reads (p : Runs) (d e : Env) (c : Expr) : Prop where
  held : c.Held p.left.session.store.exprs
  agree : p.KinEnv d e ∨ (c.Listed ∧ ∀ x, c.Free x → Option.Rel p.Kin (d.get? x) (e.get? x))

/-- The code may be evaluated where the runs are. -/
abbrev ReadsHere (p : Runs) (c : Expr) : Prop := p.Reads p.left.scope.env p.right.scope.env c

namespace Reads

variable {d e : Env} {c c' : Expr}

lemma mono (h : p.Reads d e c) (hq : p.Grows q) : q.Reads d e c := by
  refine ⟨h.held.mono hq.store.exprs, h.agree.imp hq.kinEnv fun ⟨hlisted, hfree⟩ => ?_⟩
  exact ⟨hlisted, fun x hx => optionRel_imp (fun _ _ => hq.kin) (hfree x hx)⟩

/-- What is read in a branch is read where the branch is started. -/
theorem later (h : p.ReadsHere c) (hq : p.Later q) : q.ReadsHere c := by
  rw [ReadsHere, hq.left.env, hq.right.env]
  exact h.mono hq.toGrows

/-- A part that is evaluated in the same environment. -/
theorem part (h : p.Reads d e c) (hc : c' ∈ c.kind.codes) (hlisted : c.Listed → c'.Listed)
    (hfree : ∀ x, c'.Free x → c.Free x) : p.Reads d e c' :=
  ⟨h.held.codes c' hc, h.agree.imp id fun ⟨hl, hx⟩ =>
    ⟨hlisted hl, fun x hp => hx x (hfree x hp)⟩⟩

lemma item {symbol : Nat} {items : List Expr}
    (h : p.Reads d e (.node symbol (.tuple items))) : ∀ c ∈ items, p.Reads d e c :=
  fun c hc => h.part hc (fun hl => Expr.allListed_iff.1 hl c hc)
    fun _ hx => Expr.anyFree_iff.2 ⟨c, hc, hx⟩

lemma arg {symbol : Nat} {o : Op} {args : List Expr}
    (h : p.Reads d e (.node symbol (.op o args))) : ∀ c ∈ args, p.Reads d e c :=
  fun c hc => h.part hc (fun hl => Expr.allListed_iff.1 hl c hc)
    fun _ hx => Expr.anyFree_iff.2 ⟨c, hc, hx⟩

lemma unwrapPos (h : p.Reads d e c) : p.Reads d e c.unwrapPos := by
  fun_induction Expr.unwrapPos c with
  | case1 s span c ih => exact ih (h.part (List.mem_singleton_self c) id fun _ hx => hx)
  | case2 => exact h

/-- What the free names are bound to. -/
theorem get? (h : p.Reads d e c) (hd : d.Ascending) (he : e.Ascending) {names : List Name}
    (hnames : c.Listed → ∀ x, x ∈ names ↔ c.Free x) :
    ∀ x ∈ names, Option.Rel p.Kin (d.get? x) (e.get? x) := by
  intro x hx
  rcases h.agree with hkin | ⟨hlisted, hfree⟩
  · exact hkin.get? hd he x
  · exact hfree x ((hnames hlisted x).1 hx)

lemma sorted (h : p.Reads d e c) (hst : p.left.session.store.Sorted) : c.Sorted := by
  obtain ⟨symbol, kind⟩ := c
  exact hst.exprs kind (List.mem_of_getElem? h.held.mem)

end Reads

end Runs

/-! ### Laws -/

namespace Coupling

open Eval
open Region (lax)

variable {c : Coupling} {Γ : List Stmt} {p q : Runs} {α β : Type} {m m' : Eval α}

/-- Requests with one key, for whose captures the body can be evaluated. -/
structure Requests (c : Coupling) (p : Runs) (r r' : Key × Captured) : Prop where
  key : r.1 = r'.1
  args : List.Forall₂ p.KinVar r.2.args r'.2.args
  params : c.exact → r.2.params.map Var.canon = r'.2.params.map Var.canon
  closureParam : c.exact → r.2.closureParam.map Var.canon = r'.2.closureParam.map Var.canon
  body : ∃ T, Fields.Akin T p.held r.2.env r'.2.env ∧
    c.Scopes [] p.left.session.store T (.start r.2.tags) (.start r'.2.tags)

/-- Variables are drawn and code is bound in step. -/
structure Draws (c : Coupling) : Prop where
  exact_tags : c.exact → ∀ {Γ st T o o'}, c.Scopes Γ st T o o' → T = .same
  freshVar : ∀ {Γ p s t}, p.Tys s t → c.Paired Γ p (freshVar s) (freshVar t) Runs.KinVar
  pushState : ∀ {Γ p a b}, (c.exact → a.canon = b.canon) →
    c.Paired Γ p (pushStmt (.state a)) (pushStmt (.state b)) fun _ _ _ => True
  bindResult : ∀ {Γ p a b s t}, (c.exact → a.canon = b.canon) → p.Tys s t →
    c.Paired Γ p (bindResult a s) (bindResult b t) Runs.Kin

/-- What makes coupled runs stay coupled. -/
structure Laws (c : Coupling) : Prop extends Draws c where
  refuses : ∀ stmts values, c.admits stmts values = false → c.lenient
  exact_stmts : c.exact → ∀ {Γ st T o o'}, c.Scopes Γ st T o o' →
    o.stmts.map Stmt.canon = o'.stmts.map Stmt.canon
  sessions_mono : ∀ {st st' t t'}, c.Sessions st t t' → st.Grows st' → c.Sessions st' t t'
  scopes_mono : ∀ {Γ st st' T o o'}, c.Scopes Γ st T o o' → st.Grows st' → c.Scopes Γ st' T o o'
  enterBranch : ∀ {Γ st T o o'}, c.Scopes Γ st T o o' →
    c.Scopes (Γ ++ o'.stmts) st T o.enterBranch o'.enterBranch
  /-- Only tags were drawn, those that the branches from `q` on used. -/
  drawn : ∀ {Γ Δ st T T' o o' q q'}, c.Scopes Γ st T o o' → c.Scopes Δ st T' q q' →
    T ≤ T' → o.tags.next ≤ q.tags.next → o'.tags.next ≤ q'.tags.next →
    c.Scopes Γ st T { o with tags := q.tags } { o' with tags := q'.tags }
  emit : ∀ {Γ p o as bs s t}, List.Forall₂ p.Kin as bs → p.Tys s t →
    (o.isPure = true → o.Obeys as s ∧ s.Formed) →
    c.Paired Γ p (emit o as s) (emit o bs t) Runs.Kin
  envVars : ∀ {Γ p d e}, d.Twin p.held e → d.Formed → e.Formed →
    c.Matches Γ p (envVars d) (envVars e) fun q => List.Forall₂ (Var.Twin q.held)
  unpack : ∀ {Γ p v v' d e}, p.KinVar v v' → d.Twin p.held e → d.Formed → e.Formed →
    c.Matches Γ p (unpack v d) (unpack v' e) Runs.KinEnv
  pack : ∀ {Γ p d e kind kind'}, p.KinEnv d e → lax.Value p.left (.map d kind) →
    lax.Value p.right (.map e kind') →
    c.admits (Γ ++ p.right.scope.stmts) e.visible = true →
    c.Matches Γ p (rename (fun envs => { envs }) (Rename.env d))
      (rename (fun envs => { envs }) (Rename.env e)) fun q r r' =>
        r.1.Twin q.held r'.1 ∧ List.Forall₂ q.KinVar r.2.args r'.2.args
  entered : ∀ {Γ p body arg arg' values values'}, p.SameFields values values' →
    (values.map Prod.fst).Nodup → Option.Rel p.SameArg arg arg' →
    (∀ a ∈ arg, a.name ∉ values.map Prod.fst) →
    c.admits (Γ ++ p.right.scope.stmts) values' = true →
    c.Matches Γ p (entered body arg values) (entered body arg' values') c.Requests

/-! ### Single steps -/

/-- A result that the second step gave is one that its run gave. -/
theorem Moves.ran {I O : Runs → Prop} {J : Runs → Runs → Prop} {R : Runs → α → α → Prop}
    (h : c.Moves I O J p m m' R) :
    c.Moves I O J p m m' fun q a a' => R q a a' ∧ exec m' p.right = (.ok a', q.right) := by
  intro hp
  refine (h hp).imp id ?_
  rintro ⟨q, hl, hr, hJ, hO, hout⟩
  refine ⟨q, hl, hr, hJ, hO, ?_⟩
  rcases hrun : exec m' p.right with ⟨r', v⟩
  rw [hrun] at hr hout
  generalize (exec m p.left).1 = r at hout ⊢
  subst hr
  cases hout with
  | ok h => exact .ok ⟨h, rfl⟩
  | error h => exact .error h

/-- The second run goes on only with values that are admitted. -/
theorem Moves.admitting (hc : c.Laws) {I O : Runs → Prop} {J : Runs → Runs → Prop}
    {R : Runs → α → α → Prop} {act : Eval (Fields Term)}
    (h : (∀ values v, exec act p.right = (.ok values, v) →
      c.admits (Γ ++ v.scope.stmts) values = true) → c.Moves I O J p m m' R) :
    c.Moves I O J p m (do Eval.admitting c.admits Γ act; m') R := by
  intro hp
  rcases exec_admitting c.admits Γ act p.right with
    ⟨hrun, values, v, -, hno⟩ | ⟨hrun, hadmits⟩
  · rw [exec_bind_of_error hrun]
    exact .inl ⟨hc.refuses _ values hno, .inr ⟨.outOfFuel, trivial, rfl⟩⟩
  · rw [exec_bind_of_ok hrun]
    exact h hadmits hp

lemma Together.of_matches_value {m m' : Eval Term} (h : c.Matches Γ p m m' Runs.Kin)
    (hl : lax.Does p.left m fun t w => lax.Value w t)
    (hr : lax.Does p.right m' fun t w => lax.Value w t) : c.Together Γ p m m' Runs.Same :=
  (Together.of_matches h hl hr).imp fun _ _ _ _ ⟨h, hl, hr⟩ => ⟨h, hl, hr⟩

/-- The values of related steps, one after the other. -/
theorem Together.mapM {γ : Type} {f f' : γ → Eval Term} {l : List γ}
    (h : ∀ a ∈ l, ∀ q, p.Later q → c.Together Γ q (f a) (f' a) Runs.Same) :
    c.Together Γ p (l.mapM f) (l.mapM f') fun q => List.Forall₂ q.Same := by
  induction l generalizing p with
  | nil => exact .pure .nil
  | cons a l ih =>
    rw [List.mapM_cons, List.mapM_cons]
    refine Together.bind (h a (List.mem_cons_self ..) p (.refl p)) fun t t' q hq ht => ?_
    refine Together.bind (ih fun a ha r hr => h a (List.mem_cons_of_mem _ ha) r (hq.trans hr))
      fun ts ts' r hr hts => .pure (.cons (ht.mono hr) hts)

section Draws

variable (hc : c.Draws)
include hc

lemma Draws.kin_canon (hp : c.Linked Γ p) {a b : Term} (h : p.Kin a b) (hexact : c.exact) :
    a.canon = b.canon := by
  have hT := hc.exact_tags hexact hp.scope.rest
  rw [Runs.Kin, hT] at h
  exact (Term.akin_same_iff.1 h).same

lemma Draws.kinVar_canon (hp : c.Linked Γ p) {v w : Var} (h : p.KinVar v w) (hexact : c.exact) :
    v.canon = w.canon := by
  have hcanon := hc.kin_canon hp (Term.akin_var_iff.2 h) hexact
  exact Term.var.inj hcanon

lemma Draws.kins_canon (hp : c.Linked Γ p) {as bs : List Term} (h : List.Forall₂ p.Kin as bs)
    (hexact : c.exact) : as.map Term.canon = bs.map Term.canon := by
  induction h with
  | nil => rfl
  | cons h _ ih => rw [List.map_cons, List.map_cons, hc.kin_canon hp h hexact, ih]

/-- Code of one operation on akin operands is the same if the runs are exact. -/
theorem Draws.op_canon (hp : c.Linked Γ p) (hexact : c.exact) {o : Op} {as bs : List Term}
    {s t : Ty} (h : List.Forall₂ p.Kin as bs) (hty : p.Tys s t) :
    (Term.op o as s).canon = (Term.op o bs t).canon := by
  rw [Term.canon, Term.canon, Term.canonAll_eq, Term.canonAll_eq, hc.kins_canon hp h hexact,
    hty.same]

lemma Draws.kinVars_canon (hp : c.Linked Γ p) {vs ws : List Var} (h : List.Forall₂ p.KinVar vs ws)
    (hexact : c.exact) : vs.map Var.canon = ws.map Var.canon := by
  induction h with
  | nil => rfl
  | cons h _ ih => rw [List.map_cons, List.map_cons, hc.kinVar_canon hp h hexact, ih]

/-- So is a call of one join point with akin arguments. -/
theorem Draws.call_canon (hp : c.Linked Γ p) (hexact : c.exact) {key : Key} {kind : PointKind}
    {vs ws : List Var} {s t : Ty} (h : List.Forall₂ p.KinVar vs ws) (hty : p.Tys s t) :
    (Term.call key kind vs s).canon = (Term.call key kind ws t).canon := by
  simp only [Term.canon, Var.canonAll_eq, hc.kinVars_canon hp h hexact, hty.same]

end Draws

section Laws

variable (hc : c.Laws)
include hc

/-- Sessions stay linked when the store grows. -/
lemma Laws.linked_mono {s s' t t' : Session} (h : c.LinkedSessions s s')
    (hgrow : s.store.Grows t.store) (hcoherent : t.store.Coherent) (hstore : t.store = t'.store)
    (ht : { s with store := t.store } = t) (ht' : { s' with store := t'.store } = t') :
    c.LinkedSessions t t' := by
  have hheld := MapKind.Backed.mono hgrow
  rw [← ht, ← ht']
  refine { h with
    coherent := hcoherent
    store := hstore
    points := h.points.imp fun _ _ h => ⟨h.1, h.2.mono hheld⟩
    recTypes := h.recTypes.imp fun _ _ h => ⟨h.1, h.2.mono hheld⟩
    rest := hc.sessions_mono h.rest hgrow }

/-- Work on the store gives the same in both worlds. -/
theorem Laws.build {act : Build α} {Q : α → Prop} {P : Interner ExprKind → α → Prop}
    (hdoes : Build.Does True act Q) (h : ∀ t, p.left.session.store.exprs.Extends t →
      Build.Enters t act (P t)) :
    c.Together Γ p (Eval.build act) (Eval.build act) fun q a a' =>
      a = a' ∧ Q a ∧ P q.left.session.store.exprs a := by
  intro hp
  have hgrow := (hdoes p.left.session.store fun _ => hp.left.session.store).1
  obtain ⟨hwithin, hP⟩ :=
    h _ hgrow.exprs p.left.session.store (hp.session.coherent.mono hgrow.exprs) (.refl _)
  obtain ⟨hready, hframed, hQ⟩ := Region.does_build (i := lax) (w := p.left) hdoes hp.left
  obtain ⟨hready', hframed', -⟩ := Region.does_build (i := lax) (w := p.right) hdoes hp.right
  have hstore : p.right.session.store = p.left.session.store := hp.session.store.symm
  refine .inr ⟨⟨p.tags, _, _⟩, rfl, rfl, ⟨⟨le_refl _, hframed.later.grows.store⟩,
    hframed, hframed'⟩, ⟨⟨?_, ?_⟩, hready, hready'⟩, ?_⟩
  · rw [exec_build, exec_build, hstore]
    exact hc.linked_mono hp.session hgrow hwithin rfl rfl rfl
  · rw [exec_build, exec_build, hstore]
    exact { hp.scope with rest := hc.scopes_mono hp.scope.rest hgrow }
  · rw [exec_build, exec_build, hstore]
    exact .ok ⟨rfl, hQ _ rfl, hP⟩

end Laws

/-! ### Steps around steps -/

lemma alike_setEnv (hp : c.Alike Γ p) {d e : Env} {kind kind' : MapKind}
    (hd : lax.Value p.left (.map d kind)) (he : lax.Value p.right (.map e kind')) :
    c.Alike Γ ⟨p.tags, p.left.setEnv d, p.right.setEnv e⟩ :=
  ⟨⟨hp.session, { hp.scope with }⟩,
    hp.left.of_stmts rfl rfl (Nat.le_refl _) (hd.kind trivial) hp.left.sharing,
    hp.right.of_stmts rfl rfl (Nat.le_refl _) (he.kind trivial) hp.right.sharing⟩

lemma matches_withEnv {m m' : Eval Term} {d e : Env} {kind kind' : MapKind}
    (hd : lax.Value p.left (.map d kind)) (he : lax.Value p.right (.map e kind'))
    (h : c.Matches Γ ⟨p.tags, p.left.setEnv d, p.right.setEnv e⟩ m m' Runs.Kin) :
    c.Matches Γ p (withEnv d m) (withEnv e m') Runs.Kin := by
  intro hp
  rw [exec_withEnv, exec_withEnv]
  refine (h (alike_setEnv hp hd he)).imp id ?_
  rintro ⟨q, hl, hr, hJ, hO, hout⟩
  refine ⟨⟨q.tags, q.left.setEnv p.left.scope.env, q.right.setEnv p.right.scope.env⟩,
    by rw [hl], by rw [hr], ⟨hJ.tags, hJ.store⟩, ⟨hO.session, { hO.scope with }⟩, hout⟩

lemma matches_withSpan {m m' : Eval Term} (span : Span)
    (h : c.Matches Γ ⟨p.tags, p.left.setTrace (p.left.scope.trace.push span),
      p.right.setTrace (p.right.scope.trace.push span)⟩ m m' Runs.Kin) :
    c.Matches Γ p (withSpan span m) (withSpan span m') Runs.Kin := by
  intro hp
  have hset : c.Alike Γ ⟨p.tags, p.left.setTrace (p.left.scope.trace.push span),
      p.right.setTrace (p.right.scope.trace.push span)⟩ := by
    refine ⟨⟨hp.session, { hp.scope with trace := ?_ }⟩,
      hp.left.of_stmts rfl rfl (Nat.le_refl _) hp.left.env hp.left.sharing,
      hp.right.of_stmts rfl rfl (Nat.le_refl _) hp.right.env hp.right.sharing⟩
    exact congrArg (Trace.push · span) hp.scope.trace
  rw [exec_withSpan, exec_withSpan]
  refine (h hset).imp id ?_
  rintro ⟨q, hl, hr, hJ, hO, hout⟩
  refine ⟨⟨q.tags, q.left.setTrace p.left.scope.trace, q.right.setTrace p.right.scope.trace⟩,
    by rw [hl], by rw [hr], ⟨hJ.tags, hJ.store⟩,
    ⟨hO.session, { hO.scope with trace := hp.scope.trace }⟩, hout⟩

/-! ### Evaluators -/

/-- Evaluators that do the same in environments that agree on what is read. -/
structure Uniform (c : Coupling) (Γ : List Stmt) (ev ev' : Expr → Eval Term) : Prop where
  left : Region.Evaluator lax.asks ev
  right : Region.Evaluator lax.asks ev'
  same : ∀ {e p}, p.ReadsHere e → c.Matches Γ p (ev e) (ev' e) Runs.Kin

lemma Uniform.together {ev ev' : Expr → Eval Term} (hev : c.Uniform Γ ev ev') {e : Expr}
    (he : p.ReadsHere e) : c.Together Γ p (ev e) (ev' e) Runs.Same :=
  Moves.given fun hp => by
    have hsorted := he.sorted hp.left.session.store
    exact Together.of_matches_value (hev.same he) (hev.left.good lax rfl e p.left hsorted)
      (hev.right.good lax rfl e p.right hsorted)

end Coupling

end Residual
