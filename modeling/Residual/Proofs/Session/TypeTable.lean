import Residual.Proofs.Session.RecursiveTypes

/-!
The table of recursive types against the table of join points.

The body of a type join point is done with the type that its code was evaluated to. If that type
refers to itself, the join point stands for a recursive type, and the type in its body is the
definition. Main statement: at every moment of every compilation each definition is that of a type
join point that is done, and as long as nothing was forgotten all of those are defined. Forgetting
keeps the two tables in agreement exactly if it does not reach the key of a recursive type by way
of a join point of another kind.
-/

namespace Residual

open Eval

namespace Session

/-- The type join point is done with a recursive type, whose definition is in its body. -/
def Recursive (s : Session) (key : Key) (ty : Ty) : Prop :=
  ∃ body, s.body? ⟨.type, key⟩ = some body ∧ body.ty = .recur key ∧ body.term = .type ty

/-- The definitions are those of the recursive types that are done. -/
def Tracks (s : Session) : Prop := ∀ key ty, s.recType? key = some ty ↔ s.Recursive key ty

/-- A body that is done has the type that its code tells, and for a type join point the code is
that type. -/
def Typed (s : Session) : Prop :=
  ∀ p body, s.body? p = some body →
    body.ty = p.bodyTy body.term ∧ (p.kind = .type → ∃ ty, body.term = .type ty)

lemma Typed.of_eq {s s' : Session} (h : s.Typed) (hbodies : ∀ p, s'.body? p = s.body? p) :
    s'.Typed :=
  fun p body hbody => h p body ((hbodies p).symm.trans hbody)

lemma Typed.forgetSince {s : Session} (h : s.Typed) (mark : Nat) :
    (s.forgetSince mark).Typed := by
  intro p body hbody
  rw [body?_forgetSince] at hbody
  split at hbody
  · cases hbody
  · exact h p body hbody

/-- A type join point stands for a recursive type exactly if its type refers to itself. -/
lemma Typed.recursive_iff {s : Session} (h : s.Typed) {key : Key} {ty : Ty} :
    s.Recursive key ty ↔ s.Closes key ty := by
  constructor
  · rintro ⟨body, hbody, hty, hterm⟩
    have hbodyTy := (h _ _ hbody).1
    refine ⟨⟨body, hbody, ?_⟩, ?_⟩
    · rw [hterm, Term.ty]
    · -- A type that does not refer to itself is not the recursive type either.
      refine Classical.byContradiction fun hmentions => hmentions ?_
      rw [hterm, Point.bodyTy, Term.ty, if_neg fun hand => hmentions hand.2, hty] at hbodyTy
      rw [← hbodyTy, Ty.mentions, beq_self_eq_true]
  · rintro ⟨⟨body, hbody, rfl⟩, hmentions⟩
    obtain ⟨hty, hterm⟩ := h _ _ hbody
    obtain ⟨ty, hterm⟩ := hterm rfl
    refine ⟨body, hbody, ?_, ?_⟩
    · rw [hty, Point.bodyTy, if_pos ⟨rfl, hmentions⟩]
    · rw [hterm, Term.ty]

end Session

/-! ### Bodies of type join points -/

/-- The table is consistent, and bodies have the types that their code tells. -/
structure World.Typed (w : World) (stack : List Point) : Prop where
  inStack : w.InStack stack
  bodies : w.session.Typed

namespace World.Typed

variable {w w' : World} {stack : List Point} {p : Point}

/-- Changes of the scope do not count, but for its owner. -/
theorem of_session (h : w.Typed stack) (hsession : w'.session = w.session)
    (howner : w'.scope.owner = w.scope.owner) : w'.Typed stack :=
  ⟨⟨hsession ▸ h.inStack.table, howner.trans h.inStack.owner⟩, hsession ▸ h.bodies⟩

lemma quiet (h : w.Typed stack) {s' : Session} (hq : w.session.Quiet s') :
    World.Typed { w with session := s' } stack := by
  have hpoints : s'.points = w.session.points := by rw [hq.rest]
  refine ⟨⟨h.inStack.table.quiet hq, h.inStack.owner⟩, h.bodies.of_eq fun p => ?_⟩
  unfold Session.body? Session.find?
  rw [hpoints]

lemma setPending (h : w.Typed stack) (hp : w.scope.owner = some p) (ty : Option Ty) :
    (w.setPending p ty).Typed stack := by
  have hmem := h.inStack.mem_owner hp
  exact ⟨⟨h.inStack.table.setPending hmem ty, h.inStack.owner⟩,
    h.bodies.of_eq (Session.body?_setPending ((h.inStack.table.inEvaluation p).1 hmem) ty)⟩

lemma retract (h : w.Typed stack) (hp : w.scope.owner = some p) (mark : Nat) :
    (w.retract p mark).Typed stack :=
  setPending (w := { w with session := w.session.forgetSince mark })
    ⟨⟨h.inStack.table.forgetSince mark, h.inStack.owner⟩, h.bodies.forgetSince mark⟩ hp none

lemma start (h : w.Typed stack) (hnone : w.session.find? p = none)
    (hlimit : w.session.depth < w.session.settings.maxDepth) (captured : Captured)
    (annot : Option Ty) : (w.atBody p captured annot).Typed (p :: stack) :=
  ⟨h.inStack.start hnone hlimit captured annot,
    h.bodies.of_eq (Session.body?_start hnone annot w.scope.trace _)⟩

lemma complete (h : w.Typed stack) (h' : w'.Typed (p :: stack)) (value : Term)
    (captured : Captured) :
    ((w'.setScope w.scope).complete p (w'.bodyTerm p value) captured).Typed stack := by
  refine ⟨h.inStack.complete h'.inStack _ captured, fun q body hbody => ?_⟩
  have hp := (h'.inStack.table.inEvaluation p).1 (List.mem_cons_self ..)
  have hbodies : ((w'.setScope w.scope).complete p (w'.bodyTerm p value) captured).session.body? q =
      if q = p then some ⟨w'.bodyTerm p value, p.bodyTy (w'.bodyTerm p value), captured.params,
        captured.closureParam⟩
      else w'.session.body? q :=
    Session.body?_setDone hp _ rfl q
  rw [hbodies] at hbody
  split at hbody
  · rename_i hq
    subst hq
    cases hbody
    exact ⟨rfl, fun hkind => ⟨value.ty, if_pos hkind⟩⟩
  · exact h'.bodies q body hbody

lemma abandon (h : w.Typed stack) (h' : w'.Typed (p :: stack)) :
    ((w'.setScope w.scope).abandon p).Typed stack :=
  ⟨h.inStack.abandon h'.inStack, h'.bodies.of_eq
    (Session.body?_abandon ((h'.inStack.table.inEvaluation p).1 (List.mem_cons_self ..)) _)⟩

end World.Typed

/-- Evaluation gives bodies the types that their code tells. -/
def Discipline.typedBodies : Discipline where
  Index := List Point
  strict := False
  Inv stack w := w.Typed stack
  Le := World.Later
  Known _ _ _ _ := True
  inner stack p := p :: stack
  within i _ := i
  le_refl := .refl
  le_trans := .trans
  le_grows := World.Later.grows
  le_owner := World.Later.owner
  known_le _ _ _ := trivial
  known_pending _ _ _ _ := trivial
  known_done _ _ _ _ := trivial
  known_stmts h := h.elim
  quiet h hq := ⟨h.quiet hq, hq.grows, rfl⟩
  tags h _ := ⟨h.of_session rfl rfl, .refl _, rfl⟩
  push h _ := ⟨h.of_session rfl rfl, .refl _, rfl⟩
  share h _ _ _ := ⟨h.of_session rfl rfl, .refl _, rfl⟩
  setEnv _ h := h.of_session rfl rfl
  resetEnv := World.Later.resetEnv
  setTrace _ h := h.of_session rfl rfl
  resetTrace := World.Later.resetTrace
  enterBranch h := h.of_session rfl rfl
  leaveBranch _ h' hle := ⟨h'.of_session rfl rfl, hle.grows, hle.owner⟩
  guess _ h hp _ := ⟨h.setPending hp _,
    (World.Later.refl _).of_tables ⟨rfl, rfl, rfl⟩ ⟨rfl, rfl, rfl⟩ rfl⟩
  retract _ hp _ h' hle _ := ⟨h'.retract (hle.owner.trans hp) _,
    hle.of_tables ⟨rfl, rfl, rfl⟩ ⟨rfl, rfl, rfl⟩ hle.owner⟩
  start h hnone hlimit _ := h.start hnone hlimit _ _
  complete h _ _ h' hle _ _ _ := ⟨h.complete h' _ _,
    hle.of_tables ⟨rfl, rfl, rfl⟩ ⟨rfl, rfl, rfl⟩ rfl, fun _ _ _ => trivial⟩
  abandon h _ h' hle := ⟨h.abandon h', hle.of_tables ⟨rfl, rfl, rfl⟩ ⟨rfl, rfl, rfl⟩ rfl⟩

instance : Discipline.typedBodies.Unguarded :=
  ⟨fun _ _ => trivial, fun _ _ _ => trivial, fun h => h⟩

/-! ### Agreement of the two tables -/

namespace Session

variable {s : Session}

/-- Forgetting drops the definitions of all keys that it reaches, and the type join points among
what it reaches. So it must not reach the key of a recursive type in another way. -/
lemma tracks_forgetSince_iff (h : s.Tracks) (mark : Nat) :
    (s.forgetSince mark).Tracks ↔
      ∀ p ∈ s.finished.drop mark, ∀ ty, s.Recursive p.key ty →
        ⟨.type, p.key⟩ ∈ s.finished.drop mark := by
  have hrecursive : ∀ key ty, (s.forgetSince mark).Recursive key ty ↔
      ⟨.type, key⟩ ∉ s.finished.drop mark ∧ s.Recursive key ty := by
    intro key ty
    unfold Recursive
    rw [body?_forgetSince]
    by_cases hmem : ⟨.type, key⟩ ∈ s.finished.drop mark <;> simp [hmem]
  have hdefs : ∀ key ty, (s.forgetSince mark).recType? key = some ty ↔
      (∀ p ∈ s.finished.drop mark, p.key ≠ key) ∧ s.Recursive key ty := by
    intro key ty
    rw [Recorded.recType?_forgetSince, ← h key ty]
    by_cases hany : ((s.finished.drop mark).any fun p => p.key == key) = true
    · rw [if_pos hany]
      obtain ⟨p, hp, hkey⟩ := List.any_eq_true.1 hany
      simp only [reduceCtorEq, false_iff]
      exact fun hall => hall.1 p hp (eq_of_beq hkey)
    · rw [if_neg hany]
      refine (and_iff_right fun p hp hkey => hany ?_).symm
      exact List.any_eq_true.2 ⟨p, hp, beq_iff_eq.2 hkey⟩
  constructor
  · intro htracks p hp ty hty
    refine Classical.byContradiction fun hmem => ?_
    exact ((hdefs p.key ty).1 ((htracks p.key ty).2 ((hrecursive p.key ty).2 ⟨hmem, hty⟩))).1 p hp
      rfl
  · intro hall key ty
    rw [hdefs, hrecursive]
    refine and_congr_left fun hty => ⟨fun hkeys hmem => hkeys _ hmem rfl, fun hmem p hp hkey => ?_⟩
    subst hkey
    exact hmem (hall p hp ty hty)

/-- How the definitions follow the join points. They are those of recursive types that are done,
and as long as nothing was forgotten all of them. What is forgotten keeps the two in agreement
exactly if it includes each recursive type whose key it reaches. -/
structure Follows (s : Session) : Prop where
  recursive : ∀ key ty, s.recType? key = some ty → s.Recursive key ty
  tracks : s.Kept → s.Tracks
  forget : s.Tracks → ∀ mark, (s.forgetSince mark).Tracks ↔
    ∀ p ∈ s.finished.drop mark, ∀ ty, s.Recursive p.key ty →
      ⟨.type, p.key⟩ ∈ s.finished.drop mark

lemma Recorded.follows (h : s.Recorded) (htyped : s.Typed) : s.Follows := by
  have hrecursive : ∀ key ty, s.recType? key = some ty → s.Recursive key ty := fun key ty hty =>
    htyped.recursive_iff.2 (h.closes key ty hty)
  refine ⟨hrecursive, fun hkept key ty => ⟨hrecursive key ty, fun hty => ?_⟩,
    tracks_forgetSince_iff⟩
  exact h.defined hkept key ty (htyped.recursive_iff.1 hty)

lemma typed_new (store : Store) (settings : Settings) : Session.Typed { store, settings } :=
  fun p body hbody => by cases hbody

/-- What holds of the session between two compilations. -/
structure Settled (s : Session) : Prop where
  table : s.Consistent []
  types : s.Recorded
  bodies : s.Typed

lemma settled_new (store : Store) (settings : Settings) : Session.Settled { store, settings } :=
  ⟨consistent_new store settings, recorded_new store settings, typed_new store settings⟩

namespace Settled

lemma recorded (h : s.Settled) (c : Call) : (c.world s).Recorded [] :=
  ⟨h.table.inStack c, h.types.of_eq rfl rfl rfl fun _ => rfl⟩

lemma typed (h : s.Settled) (c : Call) : (c.world s).Typed [] :=
  ⟨h.table.inStack c, h.bodies.of_eq fun _ => rfl⟩

lemma eval_recorded {stack : List Point} {w : World} (h : w.Recorded stack) (fuel : Nat)
    (e : Expr) : (exec (Eval.eval fuel e) w).2.Recorded stack :=
  (Discipline.does_eval (D := .definitions) (i := stack) fuel (fun h => h.elim)
    ⟨h, fun h => h.elim⟩).2.1.1

lemma eval_typed {stack : List Point} {w : World} (h : w.Typed stack) (fuel : Nat) (e : Expr) :
    (exec (Eval.eval fuel e) w).2.Typed stack :=
  (Discipline.does_eval (D := .typedBodies) (i := stack) fuel (fun h => h.elim)
    ⟨h, fun h => h.elim⟩).2.1.1

lemma run (h : s.Settled) (c : Call) : (c.run s).2.Settled := by
  have hrecorded := eval_recorded (h.recorded c) c.fuel c.code
  rw [c.session_run s]
  exact ⟨hrecorded.inStack.table, hrecorded.types, (eval_typed (h.typed c) c.fuel c.code).bodies⟩

lemma after (h : s.Settled) (calls : List Call) : (s.after calls).Settled := by
  induction calls generalizing s with
  | nil => exact h
  | cons c rest ih => exact ih (h.run c)

/-- Wherever a compilation comes, before and after the evaluation from there, the definitions are
recorded and the bodies have their types. -/
theorem visits (h : s.Settled) {c : Call} {stack : List Point} {fuel : Nat} {e : Expr} {w : World}
    (hvisit : Visits c.fuel c.code (c.world s) stack fuel e w) :
    ∀ s' ∈ [w.session, (exec (Eval.eval fuel e) w).2.session], s'.Recorded ∧ s'.Typed := by
  obtain ⟨⟨_, hrecorded, -⟩, -⟩ := Visits.good (D := .definitions) (i := [])
    ⟨h.recorded c, fun h => h.elim⟩ (fun h => h.elim) hvisit
  obtain ⟨⟨_, htyped, -⟩, -⟩ := Visits.good (D := .typedBodies) (i := [])
    ⟨h.typed c, fun h => h.elim⟩ (fun h => h.elim) hvisit
  intro s' hs'
  simp only [List.mem_cons, List.not_mem_nil, or_false] at hs'
  rcases hs' with rfl | rfl
  · exact ⟨World.Recorded.types hrecorded, World.Typed.bodies htyped⟩
  · exact ⟨(eval_recorded hrecorded fuel e).types, (eval_typed htyped fuel e).bodies⟩

end Settled

end Session

/-- At every moment of every compilation of a session, and when the compilation returns, the
definitions follow the join points: each is the type in the body of a recursive type that is done,
and as long as none that was done was forgotten all of those are there. -/
theorem recTypes_follow (store : Store) (settings : Settings) (calls : List Call) (c : Call) :
    let s := Session.after { store, settings } calls
    (c.run s).2.Follows ∧
      ∀ stack fuel e w, Visits c.fuel c.code (c.world s) stack fuel e w →
        ∀ s' ∈ [w.session, (exec (eval fuel e) w).2.session], s'.Follows := by
  intro s
  have hs : s.Settled := (Session.settled_new store settings).after calls
  have hrun := hs.run c
  refine ⟨hrun.types.follows hrun.bodies, fun stack fuel e w hvisit s' hs' => ?_⟩
  obtain ⟨hrecorded, htyped⟩ := hs.visits hvisit s' hs'
  exact hrecorded.follows htyped

/-- The type of lists is recursive, and its definition is there. -/
theorem recTypes_follow_list : ∃ ty,
    (ListType.call.run {}).2.recType? ⟨0⟩ = some ty ∧
      (ListType.call.run {}).2.Recursive ⟨0⟩ ty ∧ (ListType.call.run {}).2.Kept ∧
      (ListType.call.run {}).2.Tracks := by
  have hkept : (ListType.call.run {}).2.Kept := by decide +kernel
  have hdefined : ((ListType.call.run {}).2.recType? ⟨0⟩).isSome = true := by decide +kernel
  obtain ⟨ty, hty⟩ := Option.isSome_iff_exists.1 hdefined
  have hfollows : (ListType.call.run {}).2.Follows := by
    have hvisits := (recTypes_follow {} {} [] ListType.call).2
    rw [Session.after, List.foldl_nil] at hvisits
    rw [ListType.call.session_run]
    exact hvisits _ _ _ _ .start _ (List.mem_cons_of_mem _ (List.mem_cons_self ..))
  exact ⟨ty, hty, hfollows.recursive _ _ hty, hkept, hfollows.tracks hkept⟩

/-! ### A definition that is lost

A type is done and refers to itself. A method with the same body captures the same, so that it has
the same key, and is done while a split guesses the type of another method. The guess is wrong,
and what was done under it is forgotten, the definition with the method. -/

namespace LostDefinition

/-- The body of the type and of the method. -/
def shared (t y : Name) : Build Expr := do
  Build.tuple [← Build.apply (← Build.var t) (← Build.var y)]

/-- The second of two values. -/
def second (a b : Expr) : Build Expr := do
  Build.op (.tuple (.index 1)) [← Build.tuple [a, b]]

/-- A split that guesses the type of the method `g` from its other side, a text. -/
def guessing (t y g : Name) : Build Expr := do
  let result ← Build.apply (← Build.var g) (← Build.var y)
  let method ← Build.joinMethod (← shared t y)
  let first ← Build.op (.tuple (.index 0)) [← Build.tuple [result, method]]
  let text ← Build.lit (.string "text")
  let yes ← second (← Build.op (.prim (.unary .not)) [first]) text
  Build.cond (← Build.var y) yes text

def program : Build Expr := do
  let t ← Build.name "t"
  let y ← Build.name "y"
  let g ← Build.name "g"
  let type ← Build.expr (.recFunction t y (← Build.joinType (← shared t y)))
  let value ← Build.var y
  let yes ← second (← guessing t y g) value
  let body ← Build.joinMethod (← Build.cond value yes value)
  let loop ← Build.expr (.recFunction g y body)
  let arg ← Build.op .dynamize [← Build.lit (.bool true)]
  let typed ← Build.apply (← Build.var t) arg
  Build.letIn t type (← Build.tuple [typed, ← Build.apply loop arg])

lemma does_shared (t y : Name) : Build.Does True (shared t y) (Build.Fine True) := by
  refine (Build.does_var t).bind fun callee hcallee => ?_
  refine (Build.does_var y).bind fun arg harg => ?_
  refine (Build.does_op₂ hcallee harg).bind fun part hpart => ?_
  exact Build.does_tuple fun h => ⟨hpart h, trivial⟩

lemma does_second {a b : Expr} (ha : Build.Fine True a) (hb : Build.Fine True b) :
    Build.Does True (second a b) (Build.Fine True) := by
  have hparts : True → Expr.AllSorted [a, b] := fun h => ⟨ha h, hb h, trivial⟩
  exact (Build.does_tuple hparts).bind fun _ hpair => Build.does_op₁ hpair

lemma does_guessing (t y g : Name) :
    Build.Does True (guessing t y g) (Build.Fine True) := by
  refine (Build.does_var g).bind fun callee hcallee => ?_
  refine (Build.does_var y).bind fun arg harg => ?_
  refine (Build.does_op₂ hcallee harg).bind fun result hresult => ?_
  refine (does_shared t y).bind fun body hbody => ?_
  refine (Build.does_op₁ hbody).bind fun method hmethod => ?_
  have hparts : True → Expr.AllSorted [result, method] :=
    fun h => ⟨hresult h, hmethod h, trivial⟩
  refine (Build.does_tuple hparts).bind fun pair hpair => ?_
  refine (Build.does_op₁ hpair).bind fun first hfirst => ?_
  refine (Build.does_lit _).bind fun text htext => ?_
  refine (Build.does_op₁ hfirst).bind fun negated hnegated => ?_
  refine (does_second hnegated htext).bind fun yes hyes => ?_
  exact (Build.does_var y).bind fun _ htest => Build.does_cond htest hyes htext

lemma does_program : Build.Does True program (Build.Fine True) := by
  refine (Build.does_name "t").bind fun t _ => ?_
  refine (Build.does_name "y").bind fun y _ => ?_
  refine (Build.does_name "g").bind fun g _ => ?_
  refine (does_shared t y).bind fun item hitem => ?_
  refine (Build.does_op₁ hitem).bind fun join hjoin => ?_
  refine (Build.does_expr (.recFunction t y join) hjoin).bind fun type htype => ?_
  refine (Build.does_var y).bind fun value hvalue => ?_
  refine (does_guessing t y g).bind fun split hsplit => ?_
  refine (does_second hsplit hvalue).bind fun yes hyes => ?_
  refine (Build.does_cond hvalue hyes hvalue).bind fun outer houter => ?_
  refine (Build.does_op₁ houter).bind fun body hbody => ?_
  refine (Build.does_expr (.recFunction g y body) hbody).bind fun loop hloop => ?_
  refine (Build.does_lit _).bind fun truth htruth => ?_
  refine (Build.does_op₁ htruth).bind fun arg harg => ?_
  refine (Build.does_var t).bind fun callee hcallee => ?_
  refine (Build.does_op₂ hcallee harg).bind fun typed htyped => ?_
  refine (Build.does_op₂ hloop harg).bind fun looped hlooped => ?_
  have hparts : True → Expr.AllSorted [typed, looped] := fun h => ⟨htyped h, hlooped h, trivial⟩
  exact (Build.does_tuple hparts).bind fun _ hrest => Build.does_letIn htype hrest

def call : Call := .of program {} 30

lemma formed_call : call.Formed :=
  Call.formed_of does_program (Session.formed_new {}).store 30

/-- The type is done and refers to itself. -/
lemma closes_call : ∃ ty, (call.run {}).2.Closes ⟨0⟩ ty :=
  Session.exists_closes (by decide +kernel)

end LostDefinition

/-- The definition of a recursive type that is done can be lost: a method with its key was
forgotten. -/
theorem exists_untracked_recursive : ∃ (c : Call) (key : Key) (ty : Ty),
    c.Formed ∧ (c.run {}).2.Recursive key ty ∧ (c.run {}).2.recType? key = none := by
  have hlost : ((LostDefinition.call.run {}).2.recType? ⟨0⟩).isNone = true := by decide +kernel
  obtain ⟨ty, hty⟩ := LostDefinition.closes_call
  have hsettled := (Session.settled_new {} {}).run LostDefinition.call
  exact ⟨LostDefinition.call, ⟨0⟩, ty, LostDefinition.formed_call,
    hsettled.bodies.recursive_iff.2 hty, Option.isNone_iff_eq_none.1 hlost⟩

end Residual
