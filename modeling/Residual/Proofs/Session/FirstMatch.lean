import Residual.Proofs.Eval.Fuel
import Residual.Proofs.Session.LoweredMatches
import Residual.Proofs.Surface.NormalForm

/-!
A match evaluates the body of the first clause that matches.

A match is a pattern of clauses that is applied to a value. It is made ready for evaluation like
all code: the pattern is lowered, and functions list their captures. Main statement: if the value is
known and the patterns are simple, then the match has the outcome of the body of the first clause
that matches, in the environment of the match with the names of the pattern bound, and it fails if
no clause matches.
-/

namespace Residual

open Eval

variable {u : Store} {w : World} {D : Meaning} {e l : Expr} {p : Pattern} {arms : List Clause}
  {s : Term} {v x : Name} {n : Nat}

/-! ### Clauses of a match -/

lemma Clause.first?_cons (arm : Clause) (rest : List Clause) :
    Clause.first? s (arm :: rest) =
      ((arm.pattern.match? s).map fun bs => (arm, bs)).or (Clause.first? s rest) := by
  rw [Clause.first?, List.findSome?_cons]
  cases arm.pattern.match? s <;> rfl

lemma Clause.mem_of_first? {arm : Clause} {bs : Found}
    (h : Clause.first? s arms = some (arm, bs)) : arm ∈ arms := by
  obtain ⟨a, ha, hsome⟩ := List.exists_of_findSome?_eq_some h
  obtain ⟨bs', -, heq⟩ := Option.map_eq_some_iff.1 hsome
  exact (Prod.mk.inj heq).1 ▸ ha

/-- What has to hold of the clauses of a match: their patterns are simple, and no free name of a
body was made for lowered code. -/
structure Clause.Plain (u : Store) (arm : Clause) : Prop where
  simple : arm.pattern.Simple u.names
  named : ∀ x, arm.body.FreeIn u x → ¬ u.names.Generated x

lemma Clause.Plain.below {arm : Clause} (h : arm.Plain u) (n : Nat) : arm.body.Below u n :=
  fun x _ hx hi => absurd hi.generated (h.named x hx)

/-- Clauses that can be evaluated take no name made for lowered code but that of the value. -/
theorem Clause.MatchShape.below {miss : Expr} (hmiss : ∀ x, miss.FreeIn u x → x = v)
    (harms : ∀ arm ∈ arms, arm.Plain u) (h : Clause.MatchShape u.names Eq n v miss e arms)
    (hv : Subject u w n v D s) : e.Below u n := by
  obtain ⟨j, hj, hmade⟩ := hv.made
  intro x i hx hi
  have hbetween := Clause.MatchShape.between (P := Pattern.FreeIn u x) (x := x)
    (fun hm => hmiss x (Expr.freeIn_iff.2 hm)) arms h
  rcases hbetween.upper (Expr.freeIn_iff.1 hx) with htakes | rfl
  · obtain ⟨arm, harm, htakes⟩ := htakes
    have hbody := Pattern.Simple.takes arm.pattern (harms arm harm).simple htakes
    exact absurd hi.generated ((harms arm harm).named x (Expr.freeIn_iff.2 hbody))
  · rwa [hi.unique hmade]

/-- Evaluation goes on with the body of the first clause that matches. -/
theorem Clause.MatchShape.goes (hfold : w.session.settings.folding = true) {miss : Expr}
    (hmiss : ∀ x, miss.FreeIn u x → x = v) (harms : ∀ arm ∈ arms, arm.Plain u)
    (h : Clause.MatchShape u.names Eq n v miss e arms) (hv : Subject u w n v D s) :
    (∀ arm bs, Clause.first? s arms = some (arm, bs) →
      (∀ b ∈ bs, ¬ u.names.Generated b.1 ∧ w.Carries b.2) ∧
        Goes u w e D arm.body (D.extend bs)) ∧
      (Clause.first? s arms = none → Goes u w e D miss D) := by
  induction arms generalizing e with
  | nil =>
    obtain rfl : e = miss := h
    exact ⟨fun _ _ h => absurd h.symm (Option.some_ne_none _), fun _ => .refl e fun _ _ => rfl⟩
  | cons arm rest ih =>
    obtain ⟨later, hlater, he⟩ := h
    obtain ⟨harm, hrest⟩ := List.forall_mem_cons.1 harms
    have hbody := harm.below
    -- The pattern of the first clause decides between its body and the later clauses.
    have hdecides : Decides u w e D arm.body later (arm.pattern.match? s) := by
      refine he.decides (Clause.MatchShape.below hmiss hrest hlater hv) (hbody n)
        fun k i next c b hi hk hnext hb => ?_
      obtain ⟨_, rfl, hshape⟩ := hb
      exact Pattern.Shape.decides hfold arm.pattern harm.simple hshape
        ((hv.bind hk hi).mono (by omega)) (.force (hbody n) hi hk hnext)
    have hgoes := ih hrest hlater
    rw [Clause.first?_cons]
    cases hr : arm.pattern.match? s with
    | none =>
      rw [Option.map_none, Option.none_or]
      have hskip := hdecides.missed hr
      exact ⟨fun arm bs hfound => ⟨(hgoes.1 arm bs hfound).1,
        hskip.trans (hgoes.1 arm bs hfound).2⟩,
        fun hnone => hskip.trans (hgoes.2 hnone)⟩
    | some bs =>
      rw [Option.map_some, Option.some_or]
      refine ⟨fun arm' bs' hfound => ?_, fun h => absurd h (Option.some_ne_none _)⟩
      obtain ⟨rfl, rfl⟩ := Prod.mk.inj (Option.some.inj hfound)
      exact ⟨hdecides.clean bs hr, hdecides.found bs hr⟩

/-- The function that clauses denote goes on with the body of the first one that matches. -/
theorem Pattern.FunctionShape.goes (hfold : w.session.settings.folding = true)
    (h : p.FunctionShape u.names Eq n l) (hp : p.kind = .clauses arms)
    (harms : ∀ arm ∈ arms, arm.Plain u) (hs : s.Static) (hcarries : w.Carries s) :
    ∃ (arg scrutinee : Name) (split miss missed : Expr), l.IsFunction arg split ∧
      missed.kind = .var scrutinee ∧ miss.kind = .op .patternMiss [missed] ∧
      ∀ D : Meaning, (∀ arm bs, Clause.first? s arms = some (arm, bs) →
        (∀ b ∈ bs, ¬ u.names.Generated b.1 ∧ w.Carries b.2) ∧
          Goes u w split (D.bind arg s) arm.body (D.extend bs)) ∧
        (Clause.first? s arms = none →
          ∃ D' : Meaning, D' scrutinee = some s ∧ Goes u w split (D.bind arg s) miss D') := by
  obtain ⟨arms', arg, i, scrutinee, j, missed, miss, body, inner, value, split, harms', -, harg, -,
    hscrutinee, hmissed, hmiss, hbody, hinner, hvalue, hsplit, hl⟩ := h
  obtain rfl : arms' = arms := by
    rcases harms' with hkind | ⟨hkind, -⟩
    · exact PatternKind.clauses.inj (hkind.symm.trans hp)
    · exact absurd hp (hkind arms)
  refine ⟨arg, scrutinee, split, miss, missed, hl, hmissed, hmiss, fun D => ?_⟩
  have hmissFree : ∀ x, miss.FreeIn u x → x = scrutinee := fun x hx =>
    (Expr.takes_var hmissed).1 ((Expr.takes_op₁ hmiss).1 (Expr.freeIn_iff.1 hx))
  have hsubject : Subject u w (j + 1) scrutinee ((D.bind arg s).bind scrutinee s) s :=
    .new hscrutinee hs hcarries
  have hfirst : Goes u w split (D.bind arg s) body ((D.bind arg s).bind scrutinee s) :=
    .case hsplit hinner (.var hvalue Meaning.bind_self) hs.isStatic
  obtain ⟨hfound, hmissed⟩ := Clause.MatchShape.goes hfold hmissFree harms hbody hsubject
  refine ⟨fun arm bs hr => ⟨(hfound arm bs hr).1, ?_⟩, fun hr =>
    ⟨_, Meaning.bind_self, hfirst.trans (hmissed hr)⟩⟩
  refine (hfirst.trans (hfound arm bs hr).2).congr fun x hx => Meaning.extend_congr ?_
  -- The body takes no name made for lowered code, so it does not see those of the match itself.
  have hgiven := (harms arm (Clause.mem_of_first? hr)).named x hx
  exact (Meaning.bind_of_ne (hscrutinee.ne hgiven)).trans (Meaning.bind_of_ne (harg.ne hgiven))

/-! ### Environments -/

/-- Bind names one after another. -/
def Env.extend (env : Env) (bs : List (Name × Term)) : Env :=
  bs.foldl (fun env b => env.bind b.1 b.2) env

namespace World

variable {a : Env} {bs : List (Name × Term)}

lemma Offers.extend (h : w.Offers a) (hbs : ∀ b ∈ bs, w.Carries b.2) :
    w.Offers (a.extend bs) ∧ (a.extend bs).get? = Meaning.extend a.get? bs := by
  induction bs generalizing a with
  | nil => exact ⟨h, rfl⟩
  | cons b rest ih =>
    obtain ⟨hb, hrest⟩ := List.forall_mem_cons.1 hbs
    obtain ⟨hoffers, hget⟩ := ih (h.bind b.1 hb) hrest
    refine ⟨hoffers, hget.trans ?_⟩
    rw [show (a.bind b.1 b.2).get? = Meaning.bind a.get? b.1 b.2 from funext (h.get?_bind b.1)]
    rfl

lemma Offers.mono {w' : World} (h : w.Offers a) (hw : w.Framed w') : w'.Offers a :=
  ⟨h.value.mono hw, fun k hk => MapKind.Backed.mono hw.later.grows.store k (h.backed k hk)⟩

/-- Values of code of the store can be bound. -/
theorem Whole.carries_of_eval (h : w.Whole) (he : e.Held w.session.store.exprs) {fuel : Nat}
    {w' : World} (hrun : exec (Eval.eval fuel e) w = (.ok s, w')) : w'.Carries s := by
  have hreads : ReadsAlike w.session.store w.scope.env w.scope.env e :=
    ⟨he, .inl (.refl h.env.backed)⟩
  obtain ⟨-, -, -, hout⟩ := (uniform_eval fuel).together hreads h.alike
  rw [hrun] at hout
  cases hout with
  | ok hsame => exact ⟨hsame.left, hsame.twin.held⟩

end World

/-! ### Matches -/

/-- A function with listed captures is applied to what the argument evaluates to. -/
lemma Eval.exec_eval_apply {f g b : Expr} {used : Captures} {w' : World}
    (he : e.kind = .op .apply [f, g]) (hf : f.kind = .filtered used x b)
    (hg : exec (eval n g) w = (.ok s, w')) (fuel : Nat) :
    exec (eval (fuel + (n + 2)) e) w =
      exec (withEnv ((Env.restricted w.scope.env.visible used).bind x s) (eval (fuel + (n + 1)) b))
        w' := by
  have hvalue : exec (eval (fuel + (n + 1)) f) w =
      (.ok (.map (.restricted w.scope.env.visible used) (.function x b)), w) := by
    rw [← Nat.add_assoc, eval_succ, step, hf]
    rfl
  have harg : exec (eval (fuel + (n + 1)) g) w = (.ok s, w') := by
    have hne : (exec (eval n g) w).1 ≠ .error .outOfFuel := by simp [hg]
    rw [show fuel + (n + 1) = n + (fuel + 1) by omega, ← (lower_eval n _).eq hne, hg]
  have hargs : exec ([f, g].mapM (eval (fuel + (n + 1)))) w =
      (.ok [.map (.restricted w.scope.env.visible used) (.function x b), s], w') :=
    exec_mapM₂ hvalue harg
  rw [show fuel + (n + 2) = fuel + (n + 1) + 1 by omega, eval_succ, step, he]
  change exec (evalOp _ .apply [f, g]) _ = _
  rw [evalOp, exec_bind_of_ok hargs]
  change exec (apply (eval (fuel + (n + 1)))
    (.map (.restricted w.scope.env.visible used) (.function x b)) s) w' = _
  exact exec_apply_function ..

/-- The expression is a match: the pattern of some clauses, applied to a scrutinee. -/
def Expr.IsMatch (e scrutinee : Expr) (arms : List Clause) : Prop :=
  ∃ (f : Expr) (p : Pattern), e.kind = .op .apply [f, scrutinee] ∧ f.kind = .pattern p ∧
    p.kind = .clauses arms

/-- The store that issued a match issued its parts. -/
theorem Expr.IsMatch.parts {scrutinee : Expr} (h : e.IsMatch scrutinee arms) (he : e.Issued u) :
    scrutinee.Issued u ∧ ∀ arm ∈ arms, arm.body.Issued u := by
  obtain ⟨f, p, hkind, hf, hclauses⟩ := h
  have hparts : ∀ c ∈ [f, scrutinee], c.Issued u := fun c hc => he.kind.codes c (hkind ▸ hc)
  obtain ⟨hfi, hscrutinee⟩ := List.forall_mem_cons.1 hparts
  have hpattern := hfi.kind
  rw [hf] at hpattern
  have hp : p.Issued u := ⟨hpattern.codes, hpattern.nested⟩
  refine ⟨List.forall_mem_singleton.1 hscrutinee, fun arm harm => hp.kind.codes _ ?_⟩
  rw [hclauses]
  exact Clause.codes_subset harm

/-- A match in a store that has its code. -/
structure Match where
  store : Store
  expr : Expr
  scrutinee : Expr
  arms : List Clause

namespace Match

variable {m : Match}

/-- The match ready for evaluation. -/
def code (m : Match) : Expr := m.store.code m.expr

/-- The store when the match is ready for evaluation. -/
def ready (m : Match) : Store := ((Build.filter m.expr).run m.store).2

/-- The store issued the match and was built by calls of the interface, the patterns are simple, and
no free name of a body was made for lowered code. -/
structure Plain (m : Match) : Prop where
  reaches : Store.Reaches {} m.store
  issued : m.expr.Issued m.store
  isMatch : m.expr.IsMatch m.scrutinee m.arms
  simple : ∀ arm ∈ m.arms, arm.pattern.Simple m.ready.names
  named : ∀ arm ∈ m.arms, ∀ x ∈ ((Build.freeNames arm.body).run m.ready).1,
    ¬ m.ready.names.Generated x

/-- Making a match ready is a call of the interface. -/
theorem reaches_ready (hreaches : Store.Reaches {} m.store) (hissued : m.expr.Issued m.store) :
    Store.Reaches {} m.ready :=
  hreaches.tail (.filter hissued)

/-- The code of a match applies the function that its clauses denote to the code of its
scrutinee. -/
theorem Plain.ready (hm : m.Plain) : Store.Reaches {} m.ready ∧
    (∀ arm ∈ m.arms, arm.body.Issued m.ready) ∧ ∃ (f l : Expr) (p : Pattern) (n : Nat),
      m.code.Issued m.ready ∧ m.code.kind = .op .apply [f, m.ready.code m.scrutinee] ∧
      f.Issued m.ready ∧ l.Becomes m.ready f ∧ p.FunctionShape m.ready.names Eq n l ∧
      p.kind = .clauses m.arms := by
  have hgrows : m.store.Grows m.ready := Build.Adds.grows _
  have hready : Store.Reaches {} m.ready := reaches_ready hm.reaches hm.issued
  obtain ⟨hscrutinee, hbodies⟩ := hm.isMatch.parts (hm.issued.mono hgrows.nodesIn)
  obtain ⟨f₀, p, hkind, hf₀, hclauses⟩ := hm.isMatch
  have hf₀i : f₀.Issued m.ready :=
    (hm.issued.kind.codes f₀ (hkind ▸ List.mem_cons_self ..)).mono hgrows.nodesIn
  have hp : p.Issued m.ready := by
    have hpattern := hf₀i.kind
    rw [hf₀] at hpattern
    exact ⟨hpattern.codes, hpattern.nested⟩
  obtain ⟨hissued, hbecomes⟩ := hm.reaches.becomes_code hm.issued
  obtain ⟨args, hcode, hlength, hparts⟩ := hbecomes.of_op hkind
  obtain ⟨f, g, rfl⟩ := List.length_eq_two.1 hlength.symm
  have hargs : ∀ c ∈ [f, g], c.Issued m.ready := fun c hc =>
    hissued.kind.codes c (hcode ▸ hc)
  obtain ⟨hfi, hgi⟩ := List.forall_mem_cons.1 hargs
  obtain ⟨l, hlookup, hl⟩ := (hparts 0 f₀ f rfl rfl).of_pattern hf₀
  have hg : m.ready.code m.scrutinee = g :=
    hready.code_eq hscrutinee (hparts 1 _ g rfl rfl) (List.forall_mem_singleton.1 hgi)
  obtain ⟨q, hq, hsymbol, hlowers⟩ :=
    (hready.traced (Store.recordedIn_self _)).lowered _ (mem_of_lookup hlookup)
  obtain rfl : q = p := hq.eq hp.mem hsymbol
  obtain ⟨n, hshape⟩ := hlowers.shape
  exact ⟨hready, hbodies, f, l, q, n, hissued, hg ▸ hcode, hfi, hl, hshape, hclauses⟩

/-- The clauses of a match are as evaluation of its function needs them. -/
theorem Plain.arm (hm : m.Plain) : ∀ arm ∈ m.arms, arm.Plain m.ready := by
  obtain ⟨hready, hbodies, -⟩ := hm.ready
  exact fun arm harm => ⟨hm.simple arm harm,
    fun x hx => hm.named arm harm x (hready.mem_freeNames (hbodies arm harm) hx)⟩

end Match

/-! ### The first clause that matches -/

/-- Two runs have one outcome, where environments are compared by what they show. -/
def Eval.Agree (r r' : Except Stop Term × World) : Prop :=
  canonResult r.1 = canonResult r'.1 ∧ r.2.canon = r'.2.canon

namespace World.Whole

/-- Code in order is evaluated alike in environments in which its free names stand for the same. -/
theorem agree (hw : w.Whole) {a b : Env} {D : Meaning} {code : Expr}
    (ha : Position u w D e a code) (hb : Position u w D e b code) (fuel : Nat) :
    Agree (exec (withEnv a (Eval.eval fuel code)) w)
      (exec (withEnv b (Eval.eval fuel code)) w) := by
  obtain ⟨hprefiltered, -, hfree⟩ := ha.becomes.readies
  have hgrows : w.session.store.Grows ((Build.freeNames code).run w.session.store).2 :=
    Build.Adds.grows _
  obtain ⟨-, hnames⟩ := Build.enters_freeNames (ha.held.mono hgrows.exprs) _
    (hw.session.coherent.mono hgrows.exprs) (.refl _)
  refine eval_eq_of_freeNames hw hprefiltered ha.held ha.offers hb.offers (fun x hx => ?_) fuel
  have hx' := (hfree x).1 ((hnames hprefiltered.listed x).1 hx)
  rw [ha.sees x hx', hb.sees x hx']

end World.Whole

/-- Outside all branches that are left to run time, a miss is a fault. -/
theorem Goes.fails (h : Goes u w e D l D') {missed : Expr} (hl : l.kind = .op .patternMiss [missed])
    (hmissed : missed.kind = .var v) (hv : D' v = some s) (hdepth : w.scope.dynamicDepth = 0)
    {a : Env} {code : Expr} (hp : Position u w D e a code) :
    ∃ k, ∀ fuel, exec (withEnv a (eval (fuel + k) code)) w =
      (.error (.failed ⟨.noClause s.ty, w.scope.trace, none⟩), w) := by
  obtain ⟨b, code', hq, k, j, hleads⟩ := h a code hp
  obtain ⟨missed', hcode', hr⟩ := hq.arg₁ hl
  obtain ⟨i, hi⟩ := (Gives.var hmissed hv b missed' hr).1
  have hmiss : ∀ fuel, exec (eval (fuel + i + 1) code') (w.setEnv b) =
      (.error (.failed ⟨.noClause s.ty, w.scope.trace, none⟩), w.setEnv b) := by
    intro fuel
    rw [eval_succ, step, hcode']
    change exec (evalOp _ .patternMiss [missed']) _ = _
    rw [evalOp, exec_bind_of_ok (exec_mapM₁ (hi fuel))]
    change exec (patternMiss s) _ = _
    rw [patternMiss, exec_bind_of_ok (exec_getScope _),
      if_pos (show (w.setEnv b).scope.dynamicDepth = 0 from hdepth)]
    rfl
  refine ⟨i + 1 + k, fun fuel => ?_⟩
  rw [← Nat.add_assoc, hleads, show fuel + (i + 1) + j = fuel + j + i + 1 by omega, exec_withEnv,
    hmiss]
  rfl

namespace Match

variable {m : Match}

/-- A match of a value that is known has the outcome of the body of the first clause that matches,
where the names of its pattern are bound to what was found, and does nothing besides. If no clause
matches, then it fails for that reason, unless it stands in a branch that is left to run time. -/
theorem eval_first (hm : m.Plain) (hw : w.Whole) (hstore : m.ready.Grows w.session.store)
    (hfold : w.session.settings.folding = true) (hs : s.Static) {w' : World}
    (hvalue : exec (eval n (m.ready.code m.scrutinee)) w = (.ok s, w')) :
    (∀ arm bs, Clause.first? s m.arms = some (arm, bs) → ∃ k j, ∀ fuel,
      Agree (exec (eval (fuel + k) m.code) w) (exec (withEnv (w.scope.env.extend bs)
        (eval (fuel + j) (m.ready.code arm.body))) w')) ∧
    (Clause.first? s m.arms = none → w.scope.dynamicDepth = 0 → ∃ k, ∀ fuel,
      exec (eval (fuel + k) m.code) w =
        (.error (.failed ⟨.noClause s.ty, w'.scope.trace, none⟩), w')) := by
  obtain ⟨hready, hbodies, f, l, p, N, hissued, hkind, hfi, hl, hshape, hclauses⟩ := hm.ready
  have hg : (m.ready.code m.scrutinee).Issued m.ready :=
    hissued.kind.codes _ (hkind ▸ List.mem_cons_of_mem _ (List.mem_singleton_self _))
  have hheld := hg.held.mono hstore.exprs
  have hframed := framed_eval n (m.ready.code m.scrutinee) w
  have hw' := hw.eval hheld n
  have hdepth := (framed_eval n (m.ready.code m.scrutinee) w).dynamicDepth
  rw [hvalue] at hframed hw' hdepth
  have hcarries := hw.carries_of_eval hheld hvalue
  have hstore' := hstore.trans hframed.later.grows.store
  have hoffers := hw.env.mono hframed
  obtain ⟨arg, scrutinee, split, miss, missed, hfun, hmissed, hmiss, hgoes⟩ :=
    hshape.goes (hframed.settings ▸ hfold) hclauses hm.arm hs hcarries
  obtain ⟨hfound, hnone⟩ := hgoes w.scope.env.get?
  obtain ⟨used, split', hf, -, hbody⟩ :=
    Position.closed ⟨hl, hfi, hstore', hoffers, fun _ _ => rfl⟩ hfun
  have hsplit := hbody s hcarries
  have hrun := exec_eval_apply hkind hf hvalue
  constructor
  · -- The clause that applies: its body runs in the environment of the match, with the names bound.
    intro arm bs hr
    obtain ⟨hclean, hgo⟩ := hfound arm bs hr
    obtain ⟨b, code, hb, k, j, hleads⟩ := hgo _ _ hsplit
    have hcode : m.ready.code arm.body = code :=
      hready.code_eq (hbodies arm (Clause.mem_of_first? hr)) hb.becomes hb.issued
    obtain ⟨hextend, hget⟩ := hoffers.extend fun x hx => (hclean x hx).2
    refine ⟨k + (n + 2), n + 1 + j, fun fuel => ?_⟩
    rw [← Nat.add_assoc, hrun, show fuel + k + (n + 1) = fuel + (n + 1) + k by omega, hleads, hcode,
      ← Nat.add_assoc fuel (n + 1) j]
    exact hw'.agree hb { hb with offers := hextend, sees := fun x _ => by rw [hget] } _
  · -- No clause applies, and outside any branch that is a fault.
    intro hr hzero
    obtain ⟨D', hscrutinee, hgo⟩ := hnone hr
    obtain ⟨k, hfails⟩ := hgo.fails hmiss hmissed hscrutinee (hdepth.trans hzero) hsplit
    refine ⟨k + (n + 2), fun fuel => ?_⟩
    rw [← Nat.add_assoc, hrun, show fuel + k + (n + 1) = fuel + (n + 1) + k by omega, hfails]

end Match

/-! ### A pair that is matched -/

/-- A store that calls of the interface lead to is made of its own code. -/
theorem Store.Reaches.coherent {st : Store} (h : Store.Reaches {} st) : st.Coherent := by
  induction h with
  | refl => exact Store.coherent_new {}
  | tail _ hcall ih =>
    have hst := ih.mono hcall.grows.exprs
    cases hcall with
    | name s => exact (Build.enters_name s _ hst (.refl _)).1
    | fresh hint => exact (Build.enters_fresh hint _ hst (.refl _)).1
    | expr hk =>
      exact (Build.enters_kind (fun c hc => (hk.codes c hc).held.mono
        (Store.Call.expr hk).grows.exprs) _ hst (.refl _)).1
    | pattern hk => exact ⟨hst.exprs, hst.lowered, hst.filtered, hst.freeNames⟩
    | lower hp =>
      exact (Build.enters_lowerPattern (fun c hc => (hp.codes c hc).held.mono
        (Store.Call.lower hp).grows.exprs) _ hst (.refl _)).1
    | freeNames he =>
      exact (Build.enters_freeNames (he.held.mono (Store.Call.freeNames he).grows.exprs) _ hst
        (.refl _)).1
    | filter he =>
      exact (Build.enters_filter (he.held.mono (Store.Call.filter he).grows.exprs) _ hst
        (.refl _)).1

/-- A program without variables fits a new session. -/
theorem Store.Reaches.fits {st : Store} (h : Store.Reaches {} st) (hsorted : st.Sorted)
    (he : e.Issued st) (hes : e.Sorted) : Call.Fits {} ⟨st, n, e, .plain []⟩ :=
  ⟨⟨⟨hsorted, hes, List.Pairwise.nil, trivial⟩, fun _ h => absurd h List.not_mem_nil, trivial,
    False.elim, False.elim⟩, h.grows, h.coherent, he.held, fun _ h => absurd h List.not_mem_nil⟩

/-- It starts in a whole world. -/
theorem Store.Reaches.whole {st : Store} (h : Store.Reaches {} st) (hsorted : st.Sorted)
    (he : e.Issued st) (hes : e.Sorted) : (Call.world ⟨st, n, e, .plain []⟩ {}).Whole :=
  ((h.fits hsorted he hes).world (Session.whole_new {})).1

/-- The world in which a program starts that is a match. -/
def Match.world (m : Match) : World := Call.world ⟨m.store, 0, m.expr, .plain []⟩ {}

lemma Match.grows_world (m : Match) : m.ready.Grows m.world.session.store := .refl _

lemma Match.folding_world (m : Match) : m.world.session.settings.folding = true := rfl

/-- A scrutinee that is ready already stays as it is. -/
lemma Match.Plain.code_scrutinee {m : Match} (hm : m.Plain)
    (h : m.scrutinee.Becomes m.ready m.scrutinee) : m.ready.code m.scrutinee = m.scrutinee := by
  have hgrows : m.store.Grows m.ready := Build.Adds.grows _
  have hissued : m.scrutinee.Issued m.ready :=
    (hm.isMatch.parts hm.issued).1.mono hgrows.nodesIn
  exact Store.Reaches.code_eq (Match.reaches_ready hm.reaches hm.issued) hissued h hissued

namespace MatchedPair

/-- A store with the name `x`. -/
def named : Store := ((Build.name "x").run {}).2

/-- `(b, x)`, with the symbols that its nodes have in the store. -/
def pair (i j : Nat) (b : Bool) : Pattern :=
  .node i (.tuple [.node j (.lit (.bool b)), .node 1 (.var ⟨1⟩)])

/-- `(false, x) -> true` -/
def first : Clause := .mk (pair 2 0 false) (.node 0 (.lit (.bool true)))

/-- `(true, x) -> x` -/
def second : Clause := .mk (pair 4 3 true) (.node 1 (.var ⟨1⟩))

/-- `(true, 'c')` -/
def scrutinee : Expr := .node 4 (.tuple [.node 0 (.lit (.bool true)), .node 3 (.lit (.char 'c'))])

/-- What the scrutinee is evaluated to. -/
def value : Term := .tuple [.lit (.bool true), .lit (.char 'c')]

def tree : Expr :=
  .node 5 (.op .apply [.node 2 (.pattern (.node 5 (.clauses [first, second]))), scrutinee])

/-- The store that the tree was entered into. Proofs never compute it. -/
@[irreducible]
def store : Store := (tree.enter.run named).2

def entered : Match := ⟨store, tree, scrutinee, [first, second]⟩

lemma enter_eq : (tree.enter.run named).1 = tree := by
  simp only [tree, scrutinee, first, second, pair, Expr.enter, ExprKind.enter, Expr.enterAll,
    Pattern.enter, PatternKind.enter, Pattern.enterAll, Clause.enter, Clause.enterAll]
  rfl

lemma sorted_tree : tree.Sorted := by
  have hpair : ∀ i j b, (pair i j b).Sorted := fun _ _ _ => ⟨trivial, trivial, trivial⟩
  have hclauses : Clause.AllSorted [first, second] :=
    ⟨⟨hpair .., trivial⟩, ⟨hpair .., trivial⟩, trivial⟩
  exact ⟨hclauses, ⟨trivial, trivial, trivial⟩, trivial⟩

lemma sorted_store : store.Sorted := by
  have hname : Build.Does True (Build.name "x") _ := Build.does_name "x"
  have henter : Build.Does True tree.enter (Build.Fine True) :=
    Build.does_enter tree fun _ => sorted_tree
  have hnamed : named.Sorted := (hname {} fun _ => (Session.formed_new {}).store).2.1 trivial
  unfold store
  exact (henter named fun _ => hnamed).2.1 trivial

lemma reaches_named : Store.Reaches {} named := .single (.name "x")

lemma reaches : Store.Reaches {} store ∧ tree.Issued store := by
  unfold store
  exact reaches_named.enter enter_eq

/-- The name is not one that was made for lowered code. -/
theorem given : ¬ entered.ready.names.Generated ⟨1⟩ := by
  have hgrows : named.Grows store := by
    unfold store
    exact (Build.calls_enter tree named (reaches_named.canonical Store.canonical_new)).1.grows
  have hnamed : named.Grows entered.ready := hgrows.trans (Build.Adds.grows store)
  rintro ⟨s, hs, hspace⟩
  have hx : entered.ready.names.table.entries[1]? = some "x" := hnamed.names.getElem? rfl
  obtain rfl : "x" = s := Option.some.inj (hx.symm.trans hs)
  simp at hspace

lemma plain : entered.Plain := by
  have hready : Store.Reaches {} entered.ready := Match.reaches_ready reaches.1 reaches.2
  have hmatch : entered.expr.IsMatch scrutinee [first, second] := ⟨_, _, rfl, rfl, rfl⟩
  refine ⟨reaches.1, reaches.2, hmatch, ?simple, ?named⟩
  case simple =>
    exact List.forall_mem_cons.2 ⟨⟨rfl, given, trivial⟩,
      List.forall_mem_singleton.2 ⟨rfl, given, trivial⟩⟩
  case named =>
    -- The bodies are a literal and the variable.
    have hfree : ∀ arm ∈ [first, second], ∀ u x, arm.body.FreeIn u x → x = ⟨1⟩ := by
      refine List.forall_mem_cons.2 ⟨fun u x hx => ?_, List.forall_mem_singleton.2 fun u x hx => ?_⟩
      · exact absurd (Expr.freeIn_iff.1 hx) (Expr.takes_lit rfl)
      · exact (Expr.takes_var rfl).1 (Expr.freeIn_iff.1 hx)
    intro arm harm x hx
    have hgrows : store.Grows entered.ready := Build.Adds.grows store
    have hbody := ((hmatch.parts reaches.2).2 arm harm).mono hgrows.nodesIn
    exact hfree arm harm _ x (((hready.lists_namesOf hbody).mem_iff x).1 hx) ▸ given

lemma exec_scrutinee (w : World) :
    exec (eval 2 (entered.ready.code scrutinee)) w = (.ok value, w) := by
  have hbecomes : scrutinee.Becomes entered.ready scrutinee := by
    refine .tuple rfl rfl rfl fun i a a' h h' => ?_
    obtain rfl : a = a' := Option.some.inj (h.symm.trans h')
    match i, h with
    | 0, h => exact .lit (congrArg Expr.kind (Option.some.inj h).symm)
    | 1, h => exact .lit (congrArg Expr.kind (Option.some.inj h).symm)
  rw [show entered.ready.code scrutinee = scrutinee from plain.code_scrutinee hbecomes]
  rfl

end MatchedPair

open MatchedPair in
/-- The first clause misses. The body of the second one is evaluated where the variable of its
pattern is bound to the second component. -/
theorem Match.eval_first_pair : first.pattern.match? value = none ∧ ∃ k j, ∀ fuel,
    Agree (exec (eval (fuel + k) entered.code) entered.world)
      (exec (withEnv (entered.world.scope.env.extend [(⟨1⟩, .lit (.char 'c'))])
        (eval (fuel + j) (entered.ready.code second.body))) entered.world) := by
  have hstatic : value.Static := .tuple (List.forall_mem_cons.2
    ⟨.lit _, List.forall_mem_singleton.2 (.lit _)⟩)
  exact ⟨rfl, (Match.eval_first plain (plain.reaches.whole sorted_store plain.issued sorted_tree)
    entered.grows_world entered.folding_world hstatic (exec_scrutinee _)).1 second
    [(⟨1⟩, .lit (.char 'c'))] rfl⟩

end Residual
