import Residual.Eval.Array
import Residual.Eval.Fold
import Residual.Eval.Types
import Residual.Proofs.Eval.Alike

/-!
The parts of a step do the same with other source positions: emitting code, taking values apart,
and the operations on types, literals, tuples and arrays.
-/

namespace Residual.Comparison

open Eval

variable {m : Comparison} {α β γ δ : Type}

/-! ### Operands -/

lemma does_operand (op : Op) (vs : List Term) :
    m.Maps (Term.moved m.toMove) (operand op vs) (operand op (vs.map (Term.moved m.toMove))) := by
  have hlength : (vs.map (Term.moved m.toMove)).length = vs.length := List.length_map ..
  rcases vs with _ | ⟨a, _ | ⟨b, rest⟩⟩
  · exact .fail rfl
  · exact .pure rfl
  · exact .fail (congrArg (Cause.arity op 1) hlength)

lemma does_operands₂ (op : Op) (vs : List Term) :
    m.Maps (fun p : Term × Term => (p.1.moved m.toMove, p.2.moved m.toMove)) (operands₂ op vs)
      (operands₂ op (vs.map (Term.moved m.toMove))) := by
  have hlength : (vs.map (Term.moved m.toMove)).length = vs.length := List.length_map ..
  rcases vs with _ | ⟨a, _ | ⟨b, _ | ⟨c, rest⟩⟩⟩
  · exact .fail rfl
  · exact .fail rfl
  · exact .pure rfl
  · exact .fail (congrArg (Cause.arity op 2) hlength)

lemma does_operands₃ (op : Op) (vs : List Term) :
    m.Maps (fun p : Term × Term × Term =>
        (p.1.moved m.toMove, p.2.1.moved m.toMove, p.2.2.moved m.toMove))
      (operands₃ op vs) (operands₃ op (vs.map (Term.moved m.toMove))) := by
  have hlength : (vs.map (Term.moved m.toMove)).length = vs.length := List.length_map ..
  rcases vs with _ | ⟨a, _ | ⟨b, _ | ⟨c, _ | ⟨d, rest⟩⟩⟩⟩
  · exact .fail rfl
  · exact .fail rfl
  · exact .fail rfl
  · exact .pure rfl
  · exact .fail (congrArg (Cause.arity op 3) hlength)

/-! ### Emitting code -/

lemma does_setTags (tags : Tags) : m.Maps id (modifyScope fun s => { s with tags })
    (modifyScope fun s => { s with tags }) :=
  does_modifyScope fun _ _ h => { h with tags := rfl }

lemma does_share (a : Application) (v : Var) :
    m.Maps id (modifyScope fun s => { s with sharing := s.sharing.insert a v })
      (modifyScope fun s =>
        { s with sharing := s.sharing.insert (a.moved m.toMove) (v.moved m.toMove) }) := by
  refine does_modifyScope fun s s' hs => { hs with sharing := ?_ }
  rw [hs.sharing]
  exact Sharing.insert_moved m.faithful s.sharing a v

lemma does_freshTag : m.Maps id freshTag freshTag := by
  refine does_getScope fun s s' hs => ?_
  rw [hs.tags]
  cases s.tags.fresh? with
  | none => exact .throw .tagsExhausted
  | some r =>
    exact (does_setTags r.2).andThen fun _ => .pure rfl

lemma does_freshVar (t : Ty) :
    m.Maps (Var.moved m.toMove) (freshVar t) (freshVar (t.moved m.toMove)) :=
  does_freshTag.andThen fun _ => .pure rfl

lemma does_pushStmt {mk mk' : Trace → Stmt}
    (h : ∀ s s', m.Traces s s' → (mk' s').moved m.seen = (mk s).moved m.image) :
    m.Maps id (pushStmt mk) (pushStmt mk') := by
  refine does_modifyScope fun s s' hs => { hs with stmts := ?_ }
  rw [List.map_append, List.map_append, hs.stmts]
  exact congrArg (_ ++ [·]) (h _ _ hs.trace)

lemma moved_letIn {t t' : Term} (h : m.Same t t') (v : Var) {s s' : Trace} (hs : m.Traces s s') :
    (Stmt.letIn (v.moved m.toMove) t' s').moved m.seen = (Stmt.letIn v t s).moved m.image := by
  rw [Stmt.moved, Stmt.moved, h, Var.moved_moved]
  exact congrArg (Stmt.letIn _ _) hs

lemma moved_state {t t' : Term} (h : m.Same t t') {s s' : Trace} (hs : m.Traces s s') :
    (Stmt.state t' s').moved m.seen = (Stmt.state t s).moved m.image := by
  rw [Stmt.moved, Stmt.moved, h]
  exact congrArg (Stmt.state _) hs

lemma does_bindResult {t t' : Term} (h : m.Same t t') (ty : Ty) :
    m.Maps (Term.moved m.toMove) (bindResult t ty) (bindResult t' (ty.moved m.toMove)) := by
  unfold bindResult
  rw [Ty.isUnit_moved]
  split
  · exact (does_pushStmt fun _ _ hs => moved_state h hs).andThen fun _ =>
      .pure (Term.ofUnit_moved _ ty)
  · exact (does_freshVar ty).andThen fun v =>
      (does_pushStmt fun _ _ hs => moved_letIn h v hs).andThen fun _ => .pure rfl

lemma same_op (op : Op) (args : List Term) (ty : Ty) :
    m.Same (.op op args ty) (.op op (args.map (Term.moved m.toMove)) (ty.moved m.toMove)) := by
  have h := same_value (m := m) (.op op args ty)
  rwa [Term.moved, Term.movedAll_eq] at h

lemma does_emit (op : Op) (args : List Term) (ty : Ty) :
    m.Maps (Term.moved m.toMove) (emit op args ty)
      (emit op (args.map (Term.moved m.toMove)) (ty.moved m.toMove)) := by
  refine does_getSession fun s s' hs => ?_
  have hsharing : s'.settings.sharing = s.settings.sharing := by rw [hs.settings]
  rw [hsharing, Ty.isUnit_moved]
  split
  · refine does_getScope fun u u' hu => ?_
    have hget := Sharing.get?_moved m.faithful u.sharing ⟨op, args⟩
    rw [← hu.sharing, Application.moved] at hget
    simp only [hget]
    cases u.sharing.get? ⟨op, args⟩ with
    | some v => exact (does_modifyStats _).andThen fun _ => .pure rfl
    | none =>
      refine (does_freshVar ty).andThen fun v => ?_
      refine (does_pushStmt fun _ _ ht => moved_letIn (same_op op args ty) v ht).andThen fun _ => ?_
      exact (does_share ⟨op, args⟩ v).andThen fun _ => .pure rfl
  · exact does_bindResult (same_op op args ty) ty

mutual

lemma does_toRuntime (t : Term) :
    m.Maps (Term.moved m.toMove) (toRuntime t) (toRuntime (t.moved m.toMove)) := by
  match t with
  | .lit l => exact does_bindResult (same_value (.lit l)) (.prim l.type)
  | .box inner ty =>
    exact (does_toRuntime inner).andThen fun inner =>
      does_bindResult (same_value (.box inner ty)) ty
  | .tuple items =>
    exact (does_allToRuntime items).andThen fun items => .pure (by simp [Term.moved])
  | .map env kind =>
    exact (does_envToRuntime env).andThen fun l => .pure (by simp [Term.moved, Env.moved])
  | .type _ | .var _ | .letIn _ _ _ _ | .state _ _ _ | .op _ _ _ | .call _ _ _ _ => exact .pure rfl
termination_by structural t

lemma does_allToRuntime (ts : List Term) :
    m.Maps (List.map (Term.moved m.toMove)) (allToRuntime ts)
      (allToRuntime (Term.movedAll m.toMove ts)) := by
  match ts with
  | [] => exact .pure rfl
  | t :: rest =>
    exact (does_toRuntime t).andThen fun first => (does_allToRuntime rest).andThen fun others =>
      .pure rfl
termination_by structural ts

lemma does_envToRuntime (e : Env) :
    m.Maps (Fields.moved m.toMove) (envToRuntime e) (envToRuntime (e.moved m.toMove)) := by
  match e with
  | .plain l => exact does_fieldsToRuntime _ l
  | .restricted l used => exact does_fieldsToRuntime _ l
  | .consed _ l => exact does_fieldsToRuntime _ l
termination_by structural e

lemma does_fieldsToRuntime (keep : Name → Bool) (l : List (Name × Term)) :
    m.Maps (Fields.moved m.toMove) (fieldsToRuntime keep l)
      (fieldsToRuntime keep (Env.movedFields m.toMove l)) := by
  match l with
  | [] => exact .pure rfl
  | (x, t) :: rest =>
    rw [Env.movedFields, fieldsToRuntime, fieldsToRuntime]
    split
    · exact (does_toRuntime t).andThen fun first =>
        (does_fieldsToRuntime keep rest).andThen fun others => .pure rfl
    · exact does_fieldsToRuntime keep rest
termination_by structural l

end

/-! ### Parts of values -/

lemma does_readField (v : Var) (x : Name) (t : Ty) :
    m.Maps (Term.moved m.toMove) (readField v x t)
      (readField (v.moved m.toMove) x (t.moved m.toMove)) := by
  unfold readField
  rw [Ty.isUnit_moved]
  split
  · exact .pure (Term.ofUnit_moved _ t)
  · exact does_emit _ [.var v] t

lemma does_readFields (v : Var) (fields : List (Name × Ty)) :
    m.Maps (Fields.moved m.toMove) (readFields v fields)
      (readFields (v.moved m.toMove) (Ty.movedFields m.toMove fields)) := by
  induction fields with
  | nil => exact .pure rfl
  | cons e rest ih =>
    obtain ⟨x, t⟩ := e
    exact (does_readField v x t).andThen fun value => ih.andThen fun others => .pure rfl

lemma does_envVars (env : Env) :
    m.Maps (List.map (Var.moved m.toMove)) (envVars env) (envVars (env.moved m.toMove)) :=
  (does_rename (fun _ => rfl) (Rename.moves_env m.faithful env)).andThen fun _ => .pure rfl

lemma does_readPacked (v : Var) (i : Nat) (fields : List Var) :
    m.Maps id (readPacked v i fields)
      (readPacked (v.moved m.toMove) i (fields.map (Var.moved m.toMove))) := by
  induction fields generalizing i with
  | nil => exact .pure rfl
  | cons field rest ih =>
    have hread := does_emit (m := m) (.layout (.read i)) [.var v] field.ty
    rw [← Var.ty_moved] at hread
    refine hread.andThen fun value => (ih (i + 1)).andThen fun later => ?_
    cases value with
    | var new => exact .pure (by simp)
    | _ => exact .pure rfl

lemma does_unpack (v : Var) (env : Env) :
    m.Maps (Env.moved m.toMove) (unpack v env)
      (unpack (v.moved m.toMove) (env.moved m.toMove)) := by
  refine (does_envVars env).andThen fun vars => (does_readPacked v 0 vars).andThen
    fun substitution => does_getScope fun s s' hs => ?_
  rw [hs.tags]
  refine (does_rename (fun _ => rfl) (Rename.moves_env m.faithful env)).andThen fun r => ?_
  exact (does_setTags r.2.tags).andThen fun _ => .pure rfl

/-- A map of the first run, with other positions. -/
def movedMap (m : Comparison) (value : Env × MapKind) : Env × MapKind :=
  (value.1.moved m.toMove, value.2.moved m.toMove)

lemma does_mapValue? (t : Term) :
    m.Maps (Option.map m.movedMap) (mapValue? t) (mapValue? (t.moved m.toMove)) := by
  cases t with
  | map env kind => exact .pure rfl
  | type ty =>
    cases ty with
    | map fields kind =>
      refine .pure ?_
      rw [Option.map_some, movedMap, Env.moved, ← Term.ofUnitFields_moved]
    | _ => exact .pure rfl
  | var v =>
    obtain ⟨tag, ty⟩ := v
    cases ty with
    | map fields kind =>
      refine (does_readFields ⟨tag, .map fields kind⟩ fields).andThen fun read => .pure ?_
      rw [Option.map_some, movedMap, Env.moved, Env.movedFields_eq]
    | layout l env kind =>
      exact (does_unpack ⟨tag, .layout l env kind⟩ env).andThen fun read => .pure rfl
    | _ => exact .pure rfl
  | _ => exact .pure rfl

lemma does_mapValue (op : Op) (t : Term) :
    m.Maps m.movedMap (mapValue op t) (mapValue op (t.moved m.toMove)) := by
  refine (does_mapValue? t).andThen fun value => ?_
  cases value with
  | some value => exact .pure rfl
  | none => exact .fail (congrArg (Cause.notModule op) (Term.ty_moved _ _))

/-! ### Types -/

lemma does_foreignPart (t : Term) :
    m.Maps (ForeignPart.moved m.toMove) (foreignPart t) (foreignPart (t.moved m.toMove)) := by
  cases t with
  | lit l =>
    cases l with
    | string s => exact .pure rfl
    | _ => exact .fail rfl
  | type t => exact .pure rfl
  | var v =>
    cases v
    exact .pure rfl
  | _ => exact .fail (congrArg Cause.foreignPart (Term.ty_moved _ _))

lemma does_typeOp (op : TypeOp) (args : List Term) :
    m.Maps (Term.moved m.toMove) (typeOp op args)
      (typeOp op (args.map (Term.moved m.toMove))) := by
  cases op with
  | get =>
    refine (does_operand _ args).andThen fun t => .pure ?_
    rw [Term.ty_moved, Term.moved]
  | union =>
    refine (does_operands₂ _ args).andThen fun p => .pure ?_
    have h := Ty.unionOf_moved m.faithful [p.1.ty, p.2.ty]
    rw [List.map_cons, List.map_cons, List.map_nil] at h
    rw [Term.ty_moved, Term.ty_moved, Term.moved, ← h]
  | literal =>
    refine (does_operand _ args).andThen fun t => ?_
    cases t with
    | lit l => exact .pure rfl
    | _ => exact .fail (congrArg Cause.notLiteral (Term.ty_moved _ _))
  | equal =>
    refine (does_operands₂ _ args).andThen fun p => .pure ?_
    rw [Term.ty_moved, Term.ty_moved, Ty.eq_moved m.faithful, Term.moved]
  | foreign target =>
    refine (Does.mapM_map fun t _ => does_foreignPart t).andThen fun parts => .pure ?_
    rw [Term.moved, Ty.moved, ForeignPart.movedAll_eq]

lemma does_foreignArg (t : Term) :
    m.Maps (Term.moved m.toMove) (foreignArg t) (foreignArg (t.moved m.toMove)) := by
  cases t with
  | lit l =>
    cases l with
    | string s => exact .pure rfl
    | _ => exact .fail rfl
  | type t => exact .pure rfl
  | var v =>
    cases v
    exact .pure rfl
  | _ => exact .fail (congrArg Cause.foreignPart (Term.ty_moved _ _))

lemma does_foreignOp (target : Target) (args : List Term) :
    m.Maps (Term.moved m.toMove) (foreignOp target args)
      (foreignOp target (args.map (Term.moved m.toMove))) := by
  cases args with
  | nil => exact .fail rfl
  | cons result parts =>
    refine (Does.mapM_map fun t _ => does_foreignArg t).andThen fun parts => ?_
    rw [Term.ty_moved]
    exact does_bindResult (same_op (.foreign target) (.type result.ty :: parts) result.ty) result.ty

/-! ### Literals -/

lemma fold_moved (mv : Move) (op : PrimOp) (args : List Term) (result : Prim) :
    Fold.fold op (args.map (Term.moved mv)) result = Fold.fold op args result := by
  rcases args with _ | ⟨a, _ | ⟨b, _ | ⟨c, rest⟩⟩⟩
  · rfl
  · cases a <;> cases op <;> rfl
  · cases a <;> cases b <;> cases op <;> rfl
  · cases a <;> cases b <;> cases op <;> rfl

lemma does_primType (op : PrimOp) (args : List Term) :
    m.Maps id (primType op args) (primType op (args.map (Term.moved m.toMove))) := by
  have htypes : (args.map (Term.moved m.toMove)).map (fun a => a.ty.prim?) =
      args.map fun a => a.ty.prim? := by
    simp [Function.comp_def]
  have hoperands : (args.map (Term.moved m.toMove)).map Term.ty =
      (args.map Term.ty).map (Ty.moved m.toMove) := by
    simp [Function.comp_def]
  unfold primType
  rw [List.length_map, htypes]
  split
  · exact .fail rfl
  · split
    · exact .pure rfl
    · exact .fail (congrArg (Cause.operands op) hoperands)

lemma does_primOp (op : PrimOp) (args : List Term) :
    m.Maps (Term.moved m.toMove) (primOp op args)
      (primOp op (args.map (Term.moved m.toMove))) := by
  refine (does_primType op args).andThen fun result => does_getSession fun s s' hs => ?_
  have hfolding : s'.settings.folding = s.settings.folding := by rw [hs.settings]
  rw [hfolding, id, fold_moved]
  cases if s.settings.folding then Fold.fold op args result else none with
  | some l => exact .pure rfl
  | none => exact does_emit (.prim op) args (.prim result)

/-! ### Tuples -/

lemma does_notTuple (op : TupleOp) (t : Term) :
    m.Maps (Term.moved m.toMove) (notTuple op t) (notTuple op (t.moved m.toMove)) :=
  .fail (congrArg (Cause.notTuple op) (Term.ty_moved _ _))

lemma does_tupleIndex (t : Term) (i : Nat) :
    m.Maps (Term.moved m.toMove) (tupleIndex t i) (tupleIndex (t.moved m.toMove) i) := by
  cases t with
  | tuple items =>
    have hmiss := does_notTuple (m := m) (.index i) (.tuple items)
    rw [Term.moved, Term.movedAll_eq] at hmiss ⊢
    rw [tupleIndex, tupleIndex, List.getElem?_map]
    cases items[i]? with
    | some item => exact .pure rfl
    | none => exact hmiss
  -- A type of tuples stands for the tuple of its units.
  | type ty =>
    cases ty with
    | list items =>
      have hmiss := does_notTuple (m := m) (.index i) (.type (.list items))
      rw [Term.moved, Ty.moved, Ty.movedAll_eq] at hmiss ⊢
      rw [tupleIndex, tupleIndex, List.getElem?_map]
      cases items[i]? with
      | some item => exact .pure (Term.ofUnit_moved _ item)
      | none => exact hmiss
    | _ => exact does_notTuple _ _
  -- Only elements that carry data are read.
  | var v =>
    obtain ⟨tag, ty⟩ := v
    cases ty with
    | list items =>
      have hmiss := does_notTuple (m := m) (.index i) (.var ⟨tag, .list items⟩)
      have hread := fun item => does_emit (m := m) (.tuple (.index i))
        [.var ⟨tag, .list items⟩] item
      rw [Term.moved, Var.moved, Ty.moved, Ty.movedAll_eq] at hmiss ⊢
      simp only [List.map_cons, List.map_nil, Term.moved, Var.moved, Ty.moved,
        Ty.movedAll_eq] at hread
      rw [tupleIndex, tupleIndex, List.getElem?_map]
      cases items[i]? with
      | some item =>
        dsimp only [Option.map_some]
        rw [Ty.isUnit_moved]
        split
        · exact .pure (Term.ofUnit_moved _ item)
        · exact hread item
      | none => exact hmiss
    | _ => exact does_notTuple _ _
  | _ => exact does_notTuple _ _

lemma does_tupleOp (op : TupleOp) (args : List Term) :
    m.Maps (Term.moved m.toMove) (tupleOp op args)
      (tupleOp op (args.map (Term.moved m.toMove))) := by
  refine (does_operand _ args).andThen fun t => ?_
  cases op with
  | lengthEq n => exact .pure (by rw [Term.tupleLength?_moved]; rfl)
  | lengthGe n => exact .pure (by rw [Term.tupleLength?_moved]; rfl)
  | index i => exact does_tupleIndex t i
  | slice n =>
    dsimp only
    rw [Term.tupleLength?_moved]
    cases t.tupleLength? with
    | none => exact does_notTuple _ t
    | some length =>
      dsimp only
      split
      · have hitems : m.Maps (List.map (Term.moved m.toMove))
            ((List.range (length - n)).mapM fun k => tupleIndex t (n + k))
            (((List.range (length - n)).map id).mapM
              fun k => tupleIndex (t.moved m.toMove) (n + k)) :=
          Does.mapM_map fun k _ => does_tupleIndex t (n + k)
        rw [List.map_id] at hitems
        exact hitems.andThen fun items => .pure (by rw [Term.moved, Term.movedAll_eq])
      · exact does_notTuple _ t

/-! ### Arrays -/

lemma does_elementType (op : ArrayOp) (t : Term) :
    m.Maps (Ty.moved m.toMove) (elementType op t) (elementType op (t.moved m.toMove)) := by
  unfold elementType
  rw [Term.ty_moved]
  cases t.ty with
  | array storage elem =>
    dsimp only [Ty.moved]
    split
    · exact .pure rfl
    · exact .fail rfl
  | _ => exact .fail rfl

lemma does_expectIndex (op : ArrayOp) (t : Term) :
    m.Maps id (expectIndex op t) (expectIndex op (t.moved m.toMove)) := by
  unfold expectIndex
  rw [Term.ty_moved, Ty.prim?_moved]
  split
  · exact .pure rfl
  · exact .fail rfl

lemma does_expectElement (op : ArrayOp) (elem : Ty) (t : Term) :
    m.Maps id (expectElement op elem t)
      (expectElement op (elem.moved m.toMove) (t.moved m.toMove)) := by
  unfold expectElement
  rw [Term.ty_moved, Ty.eq_moved m.faithful]
  split
  · exact .pure rfl
  · exact .fail rfl

lemma does_arrayOp (op : ArrayOp) (args : List Term) :
    m.Maps (Term.moved m.toMove) (arrayOp op args)
      (arrayOp op (args.map (Term.moved m.toMove))) := by
  -- The checks look at types only; what is stored is dynamized last.
  cases op with
  | create storage =>
    refine (does_operands₂ _ args).andThen fun p => ?_
    obtain ⟨elem, length⟩ := p
    refine (does_expectIndex _ length).andThen fun _ => (does_toRuntime length).andThen
      fun length => ?_
    rw [Term.ty_moved]
    exact does_emit _ [.type elem.ty, length] (.array storage elem.ty)
  | length =>
    exact (does_operand _ args).andThen fun array => (does_elementType _ array).andThen
      fun _ => does_emit _ [array] (.prim (.int .i64))
  | index =>
    refine (does_operands₂ _ args).andThen fun p => ?_
    obtain ⟨array, index⟩ := p
    exact (does_elementType _ array).andThen fun elem => (does_expectIndex _ index).andThen
      fun _ => does_emit _ [array, index] elem
  | set =>
    refine (does_operands₃ _ args).andThen fun p => ?_
    obtain ⟨array, index, value⟩ := p
    exact (does_elementType _ array).andThen fun elem => (does_expectIndex _ index).andThen
      fun _ => (does_expectElement _ elem value).andThen fun _ => (does_toRuntime value).andThen
      fun value => does_emit _ [array, index, value] .unit
  | refCreate =>
    refine (does_operand _ args).andThen fun value => (does_toRuntime value).andThen
      fun runtime => ?_
    rw [Term.ty_moved]
    exact does_emit _ [runtime] (.array .reference value.ty)
  | refGet =>
    exact (does_operand _ args).andThen fun reference =>
      (does_elementType _ reference).andThen fun elem => does_emit _ [reference] elem
  | refSet =>
    refine (does_operands₂ _ args).andThen fun p => ?_
    obtain ⟨reference, value⟩ := p
    exact (does_elementType _ reference).andThen fun elem =>
      (does_expectElement _ elem value).andThen fun _ => (does_toRuntime value).andThen
      fun value => does_emit _ [reference, value] .unit

end Residual.Comparison
