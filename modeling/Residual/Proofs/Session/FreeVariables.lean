import Residual.Proofs.Eval.FormCoupling
import Residual.Proofs.Session.Emitted

/-!
Evaluation depends on the free variables of an expression only.

Two environments that bind the free names of prefiltered code to equal values are as good as each
other: the outcome is the same, and so is all that evaluation leaves behind. How an environment is
represented does not matter, neither that of the evaluation nor one inside a value; so outcomes and
worlds are compared in canonical form, where every environment is the plain map of what it shows.
-/

namespace Residual

open Eval

/-! ### Canonical outcomes -/

def Session.canon (s : Session) : Session :=
  { s with
    envs := ⟨s.envs.entries.map Fields.canon⟩
    keys := ⟨s.keys.entries.map KeyData.canon⟩
    points := s.points.map fun e => (e.1, e.2.canon)
    recTypes := s.recTypes.map fun e => (e.1, e.2.canon) }

def Sharing.canon (s : Sharing) : Sharing :=
  ⟨s.entries.map fun e => (e.1.canon, e.2.canon), s.scopes.map (List.map Application.canon)⟩

def Scope.canon (s : Scope) : Scope :=
  { s with env := s.env.canon, stmts := s.stmts.map Stmt.canon, sharing := s.sharing.canon }

def World.canon (w : World) : World := ⟨w.session.canon, w.scope.canon⟩

/-- The value or the error of a step, with every environment in it as a plain map. -/
def Eval.canonResult : Except Stop Term → Except Stop Term
  | .ok t => .ok t.canon
  | .error s => .error s.canon

variable {held : MapKind → Prop} {w w' : World}

lemma World.Twin.canon_eq (h : World.Twin held w w')
    (henv : w.scope.env.canon = w'.scope.env.canon) : w.canon = w'.canon := by
  obtain ⟨⟨hstore, henvs, hkeys, hpoints, hrec, hfinished, hsettings, hstats, hdepth⟩,
    ⟨htags, hstmts, ⟨hentries, hscopes⟩, htrace, hdynamic, howner⟩⟩ := h
  have hmap : ∀ {α β : Type} {R : α → α → Prop} (f : α → β) {l l' : List α},
      List.Forall₂ R l l' → (∀ a a', R a a' → f a = f a') → l.map f = l'.map f := by
    intro α β R f l l' hl hf
    induction hl with
    | nil => rfl
    | cons h _ ih => rw [List.map_cons, List.map_cons, hf _ _ h, ih]
  have henvs' := hmap Fields.canon henvs fun _ _ h => h.same
  have hpoints' := hmap (fun e => (e.1, e.2.canon)) hpoints
    fun _ _ h => congrArg₂ Prod.mk h.1 h.2.same
  have hrec' := hmap (fun e => (e.1, e.2.canon)) hrec fun _ _ h => congrArg₂ Prod.mk h.1 h.2.same
  have hentries' := hmap (fun e => (e.1.canon, e.2.canon)) hentries
    fun _ _ h => congrArg₂ Prod.mk h.1 h.2.same
  simp only [World.canon, Session.canon, Scope.canon, Sharing.canon, hstore, hkeys, hfinished,
    hsettings, hstats, hdepth, htags, hstmts, hscopes, htrace, hdynamic, howner, henv, henvs',
    hpoints', hrec', hentries']

/-! ### Sessions and worlds of a compilation -/

/-- The session is in order, its store is made of its own code, and so are the functions that it
keeps. -/
structure Session.Whole (s : Session) : Prop where
  formed : s.Formed
  sound : s.Sound Region.lax.asks
  coherent : s.store.Coherent
  envs : ∀ m ∈ s.envs.entries, ∀ k ∈ Fields.kinds m, k.Backed s.store
  points : ∀ e ∈ s.points, ∀ k ∈ e.2.progress.kinds, k.Backed s.store
  recTypes : ∀ e ∈ s.recTypes, ∀ k ∈ e.2.kinds, k.Backed s.store

namespace World

/-- Code can be evaluated in the environment: its values are in order, with environments that were
entered in the table of the session, and its functions are made of code of the store. -/
structure Offers (w : World) (env : Env) : Prop where
  value : Region.lax.Value w (.map env .module)
  backed : ∀ k ∈ env.kinds, k.Backed w.session.store

/-- A world in a compilation: the session is whole, and what the scope keeps can be used. -/
structure Whole (w : World) : Prop where
  session : w.session.Whole
  env : w.Offers w.scope.env
  stmts : ∀ s ∈ w.scope.stmts, s.Fits False (Ty.Sound ⟨w.session.envs, Region.lax.asks⟩)
  sharing : ∀ e ∈ w.scope.sharing.entries,
    Region.lax.Value w (.var e.2) ∧ ∀ k ∈ e.2.ty.kinds, k.Backed w.session.store

/-- A whole world differs from itself in nothing. -/
theorem Whole.alike (h : w.Whole) : Alike w w := by
  refine ⟨⟨h.session.coherent, ⟨⟨rfl, ?_, rfl, ?_, ?_, rfl, rfl, rfl, rfl⟩,
    ⟨rfl, rfl, ⟨?_, rfl⟩, rfl, rfl, rfl⟩⟩⟩, ?_, ?_⟩
  · exact List.forall₂_same.2 fun m hm => .refl (h.session.envs m hm)
  · exact List.forall₂_same.2 fun e he => ⟨rfl, .refl (h.session.points e he)⟩
  · exact List.forall₂_same.2 fun e he => ⟨rfl, .refl (h.session.recTypes e he)⟩
  · exact List.forall₂_same.2 fun e he => ⟨rfl, .refl (h.sharing e he).2⟩
  all_goals exact ⟨h.session.formed, h.session.sound, h.env.value, fun e he => (h.sharing e he).1,
    h.stmts, False.elim⟩

lemma Whole.of_alike (h : Alike w w) (henv : w.Offers w.scope.env) : w.Whole := by
  obtain ⟨⟨hcoherent, ⟨hsession, hscope⟩⟩, hready, -⟩ := h
  refine ⟨⟨hready.session, hready.sound, hcoherent, ?_, ?_, ?_⟩, henv, hready.fits, ?_⟩
  · exact fun m hm => (List.forall₂_same.1 hsession.envs m hm).held
  · exact fun e he => (List.forall₂_same.1 hsession.points e he).2.held
  · exact fun e he => (List.forall₂_same.1 hsession.recTypes e he).2.held
  · exact fun e he =>
      ⟨hready.sharing e he, (List.forall₂_same.1 hscope.sharing.entries e he).2.held⟩

/-- Evaluation of code of the store takes a whole world to a whole world. -/
theorem Whole.eval (h : w.Whole) {e : Expr} (he : e.Held w.session.store.exprs) (fuel : Nat) :
    (exec (Eval.eval fuel e) w).2.Whole := by
  have hreads : ReadsAlike w.session.store w.scope.env w.scope.env e :=
    ⟨he, .inl (.refl h.env.backed)⟩
  obtain ⟨halike, hframed, -, -⟩ := (uniform_eval fuel).together hreads h.alike
  refine .of_alike halike ?_
  rw [hframed.env]
  exact ⟨h.env.value.mono hframed, fun k hk =>
    MapKind.Backed.mono hframed.later.grows.store k (h.env.backed k hk)⟩

end World

/-! ### Compilations -/

lemma Session.whole_new (settings : Settings) : Session.Whole { settings } :=
  ⟨Session.formed_new settings, Session.sound_new _ settings, Store.coherent_new {},
    fun _ h => absurd h List.not_mem_nil, fun _ h => absurd h List.not_mem_nil,
    fun _ h => absurd h List.not_mem_nil⟩

/-- What a compilation is given fits the session: code of a store that has all that the store of
the session has, and an environment of values whose functions are made of code of it. -/
structure Call.Fits (s : Session) (c : Call) : Prop where
  meets : c.Meets Region.lax.asks s
  grows : s.store.Grows c.store
  coherent : c.store.Coherent
  held : c.expr.Held c.store.exprs
  backed : ∀ k ∈ c.env.kinds, k.Backed c.store

namespace Call.Fits

variable {s : Session} {c : Call}

/-- A compilation starts in a whole world, with code of its store. -/
theorem world (hc : c.Fits s) (hs : s.Whole) :
    (c.world s).Whole ∧ c.code.Held (c.world s).session.store.exprs := by
  have hgrows : c.store.Grows ((Build.filter c.expr).run c.store).2 := Build.Adds.grows _
  obtain ⟨hcoherent, hheld, -⟩ := Build.enters_filter (hc.held.mono hgrows.exprs) _
    (hc.coherent.mono hgrows.exprs) (.refl _)
  have hready := hc.meets.ready hs.formed hs.sound
  have hbacked : ∀ k : MapKind, k.Backed s.store → k.Backed (c.world s).session.store :=
    MapKind.Backed.mono (hc.grows.trans hgrows)
  refine ⟨⟨⟨hready.session, hready.sound, hcoherent, ?_, ?_, ?_⟩,
    ⟨.relax (i := c.region Region.lax.asks) rfl False.elim hready.env, ?_⟩, hready.fits,
    fun _ h => absurd h List.not_mem_nil⟩, hheld⟩
  · exact fun m hm k hk => hbacked k (hs.envs m hm k hk)
  · exact fun e he k hk => hbacked k (hs.points e he k hk)
  · exact fun e he k hk => hbacked k (hs.recTypes e he k hk)
  · exact fun k hk => MapKind.Backed.mono hgrows k (hc.backed k hk)

/-- Code without patterns is prefiltered when it is evaluated. -/
theorem prefiltered (hc : c.Fits s) (hlisted : c.expr.Listed) : c.code.Prefiltered := by
  have hgrows : c.store.Grows ((Build.filter c.expr).run c.store).2 := Build.Adds.grows _
  obtain ⟨-, -, hready⟩ := Build.enters_filter (hc.held.mono hgrows.exprs) _
    (hc.coherent.mono hgrows.exprs) (.refl _)
  exact (hready hlisted).prefiltered

end Call.Fits

/-! ### What is free in an expression decides -/

/-- Evaluation of prefiltered code in two environments that bind its free names to equal values has
one outcome: the same value or error, the same statements, tags, join points and all else that is
left behind, where environments are compared by what they show. -/
theorem eval_eq_of_freeNames {w : World} (hw : w.Whole) {e : Expr} (he : e.Prefiltered)
    (hheld : e.Held w.session.store.exprs) {d d' : Env} (hd : w.Offers d) (hd' : w.Offers d')
    (h : ∀ x ∈ ((Build.freeNames e).run w.session.store).1,
      (d.get? x).map Term.canon = (d'.get? x).map Term.canon) (fuel : Nat) :
    canonResult (exec (withEnv d (eval fuel e)) w).1 =
        canonResult (exec (withEnv d' (eval fuel e)) w).1 ∧
      (exec (withEnv d (eval fuel e)) w).2.canon =
        (exec (withEnv d' (eval fuel e)) w).2.canon := by
  have hgrows : w.session.store.Grows ((Build.freeNames e).run w.session.store).2 :=
    Build.Adds.grows _
  obtain ⟨-, hnames⟩ := Build.enters_freeNames (hheld.mono hgrows.exprs) _
    (hw.session.coherent.mono hgrows.exprs) (.refl _)
  -- Every name that is free in the expression has the same value, or none, in both environments.
  have hreads : ReadsAlike (w.setEnv d).session.store (w.setEnv d).scope.env
      (w.setEnv d').scope.env e := by
    refine ⟨hheld, .inr ⟨he.listed, fun x hx => ?_⟩⟩
    have hsame := h x ((hnames he.listed x).2 hx)
    change Option.Rel _ (d.get? x) (d'.get? x)
    cases hdx : d.get? x with
    | none =>
      rw [hdx] at hsame
      rw [Option.map_eq_none_iff.1 hsame.symm]
      exact .none
    | some t =>
      rw [hdx] at hsame
      obtain ⟨t', ht', hcanon⟩ := Option.map_eq_some_iff.1 hsame.symm
      rw [ht']
      refine .some ⟨hcanon.symm, fun k hk => hd.backed k ?_⟩
      have hasc : d.Ascending := hd.value.formed.1.ascending
      rw [hasc.get?_eq] at hdx
      rw [Env.kinds_eq]
      exact Fields.mem_kinds.2 ⟨_, Fields.mem_of_get? hdx, hk⟩
  obtain ⟨halike, -, -, hout⟩ := (uniform_eval fuel).together hreads
    (alike_setEnv hw.alike hd.value hd'.value)
  rw [exec_withEnv, exec_withEnv]
  constructor
  · generalize (exec (eval fuel e) (w.setEnv d)).1 = r at hout
    generalize (exec (eval fuel e) (w.setEnv d')).1 = r' at hout
    cases hout with
    | ok h => exact congrArg Except.ok h.twin.same
    | error h => exact congrArg Except.error h
  · have htwin := halike.twin
    exact World.Twin.canon_eq ⟨htwin.session, { htwin.scope with }⟩ rfl

/-! ### A function that captures one name -/

namespace Capturing

/-- The function of `p` that pairs the captured `x` with its argument. -/
def program : Build Expr := do
  let x ← Build.name "x"
  let p ← Build.name "p"
  let captured ← Build.var x
  let arg ← Build.var p
  Build.function p (← Build.tuple [captured, arg])

def call : Call := .of program {} 5

def world : World := call.world {}

/-- The captured name and another one are bound. -/
def wide : Env := .plain [(⟨1⟩, .lit (.bool true)), (⟨3⟩, .tuple [])]

/-- Only the captured name can be seen. -/
def narrow : Env :=
  .restricted [(⟨1⟩, .lit (.bool true)), (⟨2⟩, .lit (.bool false))] [⟨1⟩]

lemma enters_program {t : Interner ExprKind} :
    Build.Enters t program fun e => e.Held t ∧ e.Listed := by
  refine (Build.enters_name "x").bind fun x _ => (Build.enters_name "p").bind fun p _ => ?_
  refine Build.Enters.bind (Build.enters_node (.var x) trivial
    fun _ h => absurd h List.not_mem_nil) ?_
  rintro ⟨_, _⟩ ⟨hx, rfl⟩
  refine Build.Enters.bind (Build.enters_node (.var p) trivial
    fun _ h => absurd h List.not_mem_nil) ?_
  rintro ⟨_, _⟩ ⟨hp, rfl⟩
  refine Build.Enters.bind (Build.enters_node (.tuple _) trivial
    (List.forall_mem_cons.2 ⟨hx, List.forall_mem_singleton.2 hp⟩)) ?_
  rintro ⟨_, _⟩ ⟨hbody, rfl⟩
  refine (Build.enters_node (.function p _) trivial (List.forall_mem_singleton.2 hbody)).imp ?_
  rintro ⟨_, _⟩ ⟨hheld, rfl⟩
  exact ⟨hheld, trivial, trivial, trivial⟩

lemma does_program : Build.Does True program (Build.Fine True) := by
  refine (Build.does_name "x").bind fun x _ => (Build.does_name "p").bind fun p _ => ?_
  refine (Build.does_var x).bind fun captured hx => (Build.does_var p).bind fun arg hp => ?_
  refine Build.Does.bind (Build.does_expr (.tuple [captured, arg]) fun h => ⟨hx h, hp h, trivial⟩)
    fun body hbody => ?_
  exact Build.does_expr (.function p body) hbody

lemma fits : call.Fits {} := by
  have hgrows : Store.Grows {} (program.run {}).2 := by
    exact (does_program {} fun _ => (Session.formed_new {}).store).1
  obtain ⟨hcoherent, hheld, -⟩ := enters_program (t := (program.run {}).2.exprs) {}
    ((Store.coherent_new {}).mono hgrows.exprs) (.refl _)
  refine ⟨⟨Call.formed_of does_program (Session.formed_new {}).store 5, ?_, ?_, False.elim,
    False.elim⟩, hgrows, hcoherent, hheld, fun _ h => absurd h List.not_mem_nil⟩
  · exact fun _ h => absurd h List.not_mem_nil
  · trivial

lemma listed : call.expr.Listed :=
  (enters_program (t := (program.run {}).2.exprs) {}
    ((Store.coherent_new {}).mono fits.grows.exprs) (.refl _)).2.2

lemma offers_wide : world.Offers wide := by
  refine ⟨⟨?_, ?_, False.elim⟩, fun _ h => absurd h List.not_mem_nil⟩
  · refine ⟨⟨?_, trivial, trivial, trivial⟩, trivial⟩
    simp [Fields.Ascending]
  · exact ⟨fun _ => trivial, fun _ => trivial, trivial⟩

lemma offers_narrow : world.Offers narrow := by
  refine ⟨⟨?_, ?_, False.elim⟩, fun _ h => absurd h List.not_mem_nil⟩
  · refine ⟨⟨?_, ⟨trivial, trivial, trivial⟩, List.pairwise_singleton ..⟩, trivial⟩
    simp [Fields.Ascending]
  · exact ⟨fun _ => trivial, fun _ => trivial, trivial⟩

end Capturing

/-- The function has one outcome where another name is bound too and where it cannot be seen. -/
theorem eval_eq_of_freeNames_capturing :
    canonResult (exec (withEnv Capturing.wide (eval 5 Capturing.call.code)) Capturing.world).1 =
        canonResult
          (exec (withEnv Capturing.narrow (eval 5 Capturing.call.code)) Capturing.world).1 ∧
      (exec (withEnv Capturing.wide (eval 5 Capturing.call.code)) Capturing.world).2.canon =
        (exec (withEnv Capturing.narrow (eval 5 Capturing.call.code)) Capturing.world).2.canon := by
  obtain ⟨hwhole, hheld⟩ := Capturing.fits.world (Session.whole_new {})
  refine eval_eq_of_freeNames hwhole (Capturing.fits.prefiltered Capturing.listed) hheld
    Capturing.offers_wide Capturing.offers_narrow (fun x hx => ?_) 5
  have hnames : ((Build.freeNames Capturing.call.code).run Capturing.world.session.store).1 =
      [⟨1⟩] := by decide +kernel
  obtain rfl := List.mem_singleton.1 (hnames ▸ hx)
  rfl

end Residual
