import Residual.Proofs.Eval.Links

/-!
Definitions of recursive types.

A finished type that refers to itself is recorded as the definition of its recursive type. The
definition is lost when a join point with its key is forgotten, of whatever kind it is. Main
statement: every definition is the finished type of its join point, and as long as nothing was
forgotten every finished type that refers to itself is a definition.
-/

namespace Residual

lemma lookup_filter {α β : Type} [BEq α] [LawfulBEq α] (f : α → Bool) (l : List (α × β))
    (a : α) : (l.filter fun e => f e.1).lookup a = if f a then l.lookup a else none := by
  induction l with
  | nil => simp
  | cons e rest ih =>
    obtain ⟨b, e⟩ := e
    by_cases hb : a = b
    · subst hb
      cases hf : f a <;> simp [hf, ih]
    · have hne : (a == b) = false := beq_false_of_ne hb
      cases hf : f b <;> simp [List.lookup_cons, hf, hne, ih]

namespace Session

/-- The type is the finished type of a join point, and refers to itself. -/
def Closes (s : Session) (key : Key) (ty : Ty) : Prop :=
  (∃ body, s.body? ⟨.type, key⟩ = some body ∧ body.term.ty = ty) ∧ ty.mentions key = true

/-- Every join point that was ever done still is. -/
def Kept (s : Session) : Prop := s.finished.length = s.stats.bodies

instance (s : Session) : Decidable s.Kept :=
  inferInstanceAs (Decidable (s.finished.length = s.stats.bodies))

lemma exists_closes {s : Session} {key : Key}
    (h : (s.body? ⟨.type, key⟩).any (fun body => body.term.ty.mentions key) = true) :
    ∃ ty, s.Closes key ty := by
  obtain ⟨body, hbody, hmentions⟩ := (Option.any_eq_true ..).1 h
  exact ⟨body.term.ty, ⟨body, hbody, rfl⟩, hmentions⟩

lemma Closes.of_eq {s s' : Session} {key : Key} {ty : Ty} (h : s.Closes key ty)
    (hbody : s'.body? ⟨.type, key⟩ = s.body? ⟨.type, key⟩) : s'.Closes key ty := by
  unfold Closes
  rw [hbody]
  exact h

/-- Definitions are finished types, and as long as nothing was forgotten all of those that refer
to themselves. -/
structure Recorded (s : Session) : Prop where
  closes : ∀ key ty, s.recType? key = some ty → s.Closes key ty
  counted : s.finished.length ≤ s.stats.bodies
  defined : s.Kept → ∀ key ty, s.Closes key ty → s.recType? key = some ty

namespace Recorded

variable {s s' : Session} {stack : List Point} {p : Point}

lemma of_eq (h : s.Recorded) (hrec : s'.recTypes = s.recTypes)
    (hfinished : s'.finished = s.finished) (hcount : s'.stats.bodies = s.stats.bodies)
    (hbodies : ∀ p, s'.body? p = s.body? p) : s'.Recorded := by
  have hdefs : ∀ key, s'.recType? key = s.recType? key := fun key => by
    unfold recType?
    rw [hrec]
  refine ⟨fun key ty hty => ?_, ?_, fun hkept key ty hty => ?_⟩
  · exact (h.closes key ty (hdefs key ▸ hty)).of_eq (hbodies _)
  · rw [hfinished, hcount]
    exact h.counted
  · rw [hdefs]
    refine h.defined ?_ key ty (hty.of_eq (hbodies _).symm)
    rwa [Kept, hfinished, hcount] at hkept

lemma recType?_forgetSince (s : Session) (mark : Nat) (key : Key) :
    (s.forgetSince mark).recType? key =
      if (s.finished.drop mark).any fun p => p.key == key then none else s.recType? key := by
  refine (lookup_filter (fun k => !(s.finished.drop mark).any fun p => p.key == k)
    s.recTypes key).trans ?_
  cases (s.finished.drop mark).any fun p => p.key == key <;> rfl

/-- What was done last is forgotten, with its definitions. -/
theorem forgetSince (h : s.Recorded) (mark : Nat) : (s.forgetSince mark).Recorded := by
  have hlength : (s.forgetSince mark).finished.length = min mark s.finished.length :=
    List.length_take
  have hcounted := h.counted
  refine ⟨fun key ty hty => ?_, ?_, fun hkept => ?_⟩
  · rw [recType?_forgetSince] at hty
    split at hty
    · cases hty
    · rename_i hany
      refine (h.closes key ty hty).of_eq ?_
      rw [body?_forgetSince, if_neg fun hmem => hany ?_]
      exact List.any_eq_true.2 ⟨_, hmem, beq_self_eq_true key⟩
  · rw [hlength]
    exact Nat.le_trans (Nat.min_le_right ..) hcounted
  · -- Then there was nothing to forget.
    have hdrop : s.finished.drop mark = [] := by
      change (s.forgetSince mark).finished.length = s.stats.bodies at hkept
      rw [hlength] at hkept
      exact List.drop_eq_nil_of_le (by omega)
    have hkept' : s.Kept := by
      rw [Kept, ← List.take_append_drop mark s.finished, hdrop, List.append_nil]
      exact hkept
    intro key ty hty
    rw [recType?_forgetSince, hdrop]
    refine h.defined hkept' key ty (hty.of_eq ?_)
    rw [body?_forgetSince, hdrop]
    rfl

/-- A join point in evaluation has no definition, so that it cannot be in the way of the one that
is recorded when it is done. -/
lemma recType?_eq_none (h : s.Recorded) (hp : s.InEvaluation p) (hkind : p.kind = .type) :
    s.recType? p.key = none := by
  obtain ⟨kind, key⟩ := p
  cases hkind
  refine Option.eq_none_iff_forall_not_mem.2 fun ty hty => ?_
  obtain ⟨⟨body, hbody, -⟩, -⟩ := h.closes key ty hty
  rw [hp.body?_eq_none] at hbody
  cases hbody

end Recorded

end Session

/-- When `p` is done there is one more definition if its type refers to itself. -/
lemma World.recType?_complete (w : World) (p : Point) (term : Term) (captured : Eval.Captured)
    (key : Key) :
    (w.complete p term captured).session.recType? key =
      if p = ⟨.type, key⟩ ∧ term.ty.mentions key then some term.ty
      else w.session.recType? key := by
  obtain ⟨kind, k⟩ := p
  by_cases hk : k = key
  · subst hk
    by_cases hkind : kind = .type <;> by_cases hm : term.ty.mentions k = true <;>
      simp [World.complete, Session.recType?, hkind, hm]
  · have hne : (⟨kind, k⟩ : Point) ≠ ⟨.type, key⟩ := fun h => hk (congrArg Point.key h)
    rw [if_neg fun h => hne h.1]
    unfold World.complete Session.recType?
    dsimp only
    split
    · rw [List.lookup_cons, beq_false_of_ne (Ne.symm hk)]
      refine (lookup_filter (fun k' => decide (k' ≠ k)) w.session.recTypes key).trans ?_
      rw [if_pos (decide_eq_true (Ne.symm hk))]
    · rfl

namespace Session.Recorded

variable {w : World} {stack : List Point} {p : Point}

/-- A finished type is recorded if it refers to itself. -/
theorem complete (h : w.session.Recorded) (hp : w.session.InEvaluation p) (term : Term)
    (captured : Eval.Captured) : (w.complete p term captured).session.Recorded := by
  have hbodies : ∀ q, (w.complete p term captured).session.body? q =
      if q = p then some ⟨term, p.bodyTy term, captured.params, captured.closureParam⟩
      else w.session.body? q :=
    body?_setDone hp _ rfl
  -- Only the types of the new key can have changed.
  have hcloses : ∀ key ty, (w.complete p term captured).session.Closes key ty ↔
      if p = ⟨.type, key⟩ then term.ty = ty ∧ ty.mentions key = true
      else w.session.Closes key ty := by
    intro key ty
    unfold Closes
    rw [hbodies]
    by_cases hkey : p = ⟨.type, key⟩
    · rw [if_pos hkey, if_pos hkey.symm]
      simp
    · rw [if_neg hkey, if_neg (Ne.symm hkey)]
  have hlength : (w.complete p term captured).session.finished.length =
      w.session.finished.length + 1 := List.length_append
  refine ⟨fun key ty hty => ?_, ?_, fun hkept key ty hty => ?_⟩
  · -- A recorded type is that of a body.
    rw [hcloses]
    rw [World.recType?_complete] at hty
    split at hty
    · rename_i hkey
      rw [if_pos hkey.1]
      cases hty
      exact ⟨rfl, hkey.2⟩
    · rename_i hkey
      by_cases hkind : p = ⟨.type, key⟩
      · subst hkind
        rw [h.recType?_eq_none hp rfl] at hty
        cases hty
      · rw [if_neg hkind]
        exact h.closes key ty hty
  · -- There is one body more.
    rw [hlength]
    exact Nat.succ_le_succ h.counted
  · -- A type that mentions itself is recorded, unless a definition was lost before.
    rw [hcloses] at hty
    rw [World.recType?_complete]
    split at hty
    · rename_i hkey
      obtain ⟨rfl, hmentions⟩ := hty
      rw [if_pos ⟨hkey, hmentions⟩]
    · rename_i hkey
      rw [if_neg fun h => hkey h.1]
      refine h.defined ?_ key ty hty
      rw [Kept, hlength] at hkept
      exact Nat.succ.inj hkept

end Session.Recorded

namespace World

/-- The table is consistent, and the definitions agree with it. -/
structure Recorded (w : World) (stack : List Point) : Prop where
  inStack : w.InStack stack
  types : w.session.Recorded

namespace Recorded

variable {w w' : World} {stack : List Point} {p : Point}

/-- Changes of the scope do not count, but for its owner. -/
theorem of_session (h : w.Recorded stack) (hsession : w'.session = w.session)
    (howner : w'.scope.owner = w.scope.owner) : w'.Recorded stack :=
  ⟨⟨hsession ▸ h.inStack.table, howner.trans h.inStack.owner⟩, hsession ▸ h.types⟩

lemma quiet (h : w.Recorded stack) {s' : Session} (hq : w.session.Quiet s') :
    World.Recorded { w with session := s' } stack := by
  have hpoints : s'.points = w.session.points := by rw [hq.rest]
  refine ⟨⟨h.inStack.table.quiet hq, h.inStack.owner⟩,
    h.types.of_eq (by rw [hq.rest]) (by rw [hq.rest]) hq.bodies fun p => ?_⟩
  unfold Session.body? Session.find?
  rw [hpoints]

lemma setPending (h : w.Recorded stack) (hp : w.scope.owner = some p) (ty : Option Ty) :
    (w.setPending p ty).Recorded stack := by
  have hmem := h.inStack.mem_owner hp
  have hin := (h.inStack.table.inEvaluation p).1 hmem
  exact ⟨⟨h.inStack.table.setPending hmem ty, h.inStack.owner⟩,
    h.types.of_eq rfl rfl rfl (Session.body?_setPending hin ty)⟩

lemma retract (h : w.Recorded stack) (hp : w.scope.owner = some p) (mark : Nat) :
    (w.retract p mark).Recorded stack :=
  setPending (w := { w with session := w.session.forgetSince mark })
    ⟨⟨h.inStack.table.forgetSince mark, h.inStack.owner⟩, h.types.forgetSince mark⟩ hp none

lemma start (h : w.Recorded stack) (hnone : w.session.find? p = none)
    (hlimit : w.session.depth < w.session.settings.maxDepth) (captured : Eval.Captured)
    (annot : Option Ty) : (w.atBody p captured annot).Recorded (p :: stack) :=
  ⟨h.inStack.start hnone hlimit captured annot,
    h.types.of_eq rfl rfl rfl (Session.body?_start hnone annot w.scope.trace _)⟩

lemma complete (h : w.Recorded stack) (h' : w'.Recorded (p :: stack)) (term : Term)
    (captured : Eval.Captured) :
    ((w'.setScope w.scope).complete p term captured).Recorded stack :=
  ⟨h.inStack.complete h'.inStack term captured,
    Session.Recorded.complete (w := w'.setScope w.scope) h'.types
      ((h'.inStack.table.inEvaluation p).1 (List.mem_cons_self ..)) term captured⟩

lemma abandon (h : w.Recorded stack) (h' : w'.Recorded (p :: stack)) :
    ((w'.setScope w.scope).abandon p).Recorded stack :=
  ⟨h.inStack.abandon h'.inStack, h'.types.of_eq rfl rfl rfl
    (Session.body?_abandon ((h'.inStack.table.inEvaluation p).1 (List.mem_cons_self ..)) _)⟩

end Recorded

end World

/-- Evaluation keeps the definitions of recursive types in agreement with the finished types. -/
def Discipline.definitions : Discipline where
  Index := List Point
  strict := False
  Inv stack w := w.Recorded stack
  Le := World.Later
  Known _ _ _ _ := True
  inner stack p := p :: stack
  within i _ := i
  le_refl := .refl
  le_trans := .trans
  le_grows := World.Later.grows
  le_owner := World.Later.owner
  known_le _ _ _ := trivial
  known_pending _ _ _ _ := trivial
  known_done _ _ _ _ := trivial
  known_stmts h := h.elim
  quiet h hq := ⟨h.quiet hq, hq.grows, rfl⟩
  tags h _ := ⟨h.of_session rfl rfl, .refl _, rfl⟩
  push h _ := ⟨h.of_session rfl rfl, .refl _, rfl⟩
  share h _ _ _ := ⟨h.of_session rfl rfl, .refl _, rfl⟩
  setEnv _ h := h.of_session rfl rfl
  resetEnv := World.Later.resetEnv
  setTrace _ h := h.of_session rfl rfl
  resetTrace := World.Later.resetTrace
  enterBranch h := h.of_session rfl rfl
  leaveBranch _ h' hle := ⟨h'.of_session rfl rfl, hle.grows, hle.owner⟩
  guess _ h hp _ := ⟨h.setPending hp _,
    (World.Later.refl _).of_tables ⟨rfl, rfl, rfl⟩ ⟨rfl, rfl, rfl⟩ rfl⟩
  retract _ hp _ h' hle _ := ⟨h'.retract (hle.owner.trans hp) _,
    hle.of_tables ⟨rfl, rfl, rfl⟩ ⟨rfl, rfl, rfl⟩ hle.owner⟩
  start h hnone hlimit _ := h.start hnone hlimit _ _
  complete h _ _ h' hle _ _ _ := ⟨h.complete h' _ _,
    hle.of_tables ⟨rfl, rfl, rfl⟩ ⟨rfl, rfl, rfl⟩ rfl, fun _ _ _ => trivial⟩
  abandon h _ h' hle := ⟨h.abandon h', hle.of_tables ⟨rfl, rfl, rfl⟩ ⟨rfl, rfl, rfl⟩ rfl⟩

instance : Discipline.definitions.Unguarded :=
  ⟨fun _ _ => trivial, fun _ _ _ => trivial, fun h => h⟩

end Residual
