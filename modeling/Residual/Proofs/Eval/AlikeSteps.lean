import Residual.Eval.Step
import Residual.Proofs.Eval.AlikeParts

/-!
Application, modules and packing do the same with other source positions, and so does all that
is done to the table of join points.
-/

namespace Residual.Comparison

open Eval

variable {m : Comparison} {α β γ δ : Type}

/-- The second evaluator does with moved code what the first one does with the code itself. -/
def Evaluators (m : Comparison) (ev ev' : Expr → Eval Term) : Prop :=
  ∀ e, m.Maps (Term.moved m.toMove) (ev e) (ev' (e.moved m.span))

/-! ### Tables of join points -/

namespace Points

variable {t t' : PointTable}

lemma get? (h : m.Points t t') (p : Point) : Option.Rel m.Entries (t.get? p) (t'.get? p) := by
  induction h with
  | nil => exact .none
  | @cons e e' t t' he _ ih =>
    obtain ⟨q, entry⟩ := e
    obtain ⟨q', entry'⟩ := e'
    obtain ⟨rfl, hentry⟩ := he
    rw [PointTable.get?_cons, PointTable.get?_cons]
    split
    · exact .some hentry
    · exact ih

lemma insert (h : m.Points t t') (p : Point) {e e' : Entry} (he : m.Entries e e') :
    m.Points (t.insert p e) (t'.insert p e') :=
  .cons ⟨rfl, he⟩ h

lemma erase (h : m.Points t t') (p : Point) : m.Points (t.erase p) (t'.erase p) := by
  induction h with
  | nil => exact .nil
  | @cons e e' t t' he _ ih =>
    obtain ⟨q, entry⟩ := e
    obtain ⟨q', entry'⟩ := e'
    obtain ⟨rfl, hentry⟩ := he
    rw [PointTable.erase_cons, PointTable.erase_cons]
    split
    · exact ih
    · exact .cons ⟨rfl, hentry⟩ ih

lemma eraseAll (h : m.Points t t') (ps : List Point) :
    m.Points (ps.foldl PointTable.erase t) (ps.foldl PointTable.erase t') := by
  induction ps generalizing t t' with
  | nil => exact h
  | cons p rest ih => exact ih (h.erase p)

lemma setProgress (h : m.Points t t') (p : Point) {progress progress' : Progress}
    (hp : m.Progresses progress progress') :
    m.Points (t.setProgress p progress) (t'.setProgress p progress') := by
  induction h with
  | nil => exact .nil
  | @cons e e' t t' he _ ih =>
    refine .cons ?_ ih
    obtain ⟨q, entry⟩ := e
    obtain ⟨q', entry'⟩ := e'
    obtain ⟨rfl, hentry⟩ := he
    dsimp only
    split
    · exact ⟨rfl, hp, hentry.trace⟩
    · exact ⟨rfl, hentry⟩

end Points

namespace Sessions

variable {s s' : Session} (h : m.Sessions s s')
include h

lemma find? (p : Point) : Option.Rel m.Entries (s.find? p) (s'.find? p) := h.points.get? p

lemma recType? (key : Key) : s'.recType? key = (s.recType? key).map (Ty.moved m.toMove) := by
  rw [Session.recType?, h.recTypes]
  exact lookup_map _ _ _

lemma setPoints {points points' : PointTable} (hp : m.Points points points') :
    m.Sessions { s with points } { s' with points := points' } :=
  { h with points := hp }

lemma forgetSince (mark : Nat) : m.Sessions (s.forgetSince mark) (s'.forgetSince mark) := by
  have hpoints : m.Points (s.forgetSince mark).points (s'.forgetSince mark).points := by
    dsimp only [Session.forgetSince]
    rw [h.finished]
    exact h.points.eraseAll _
  have hrecTypes : (s'.forgetSince mark).recTypes =
      (s.forgetSince mark).recTypes.map fun e => (e.1, e.2.moved m.toMove) := by
    dsimp only [Session.forgetSince]
    rw [h.finished, h.recTypes, List.filter_map]
    rfl
  exact { h with
    points := hpoints
    recTypes := hrecTypes
    finished := congrArg (List.take mark) h.finished }

end Sessions

/-! ### Unions -/

lemma does_unionMembers (t : Ty) :
    m.Maps (List.map (Ty.moved m.toMove)) (unionMembers t) (unionMembers (t.moved m.toMove)) := by
  have hown : (t.moved m.toMove).members?.getD [t.moved m.toMove] =
      (t.members?.getD [t]).map (Ty.moved m.toMove) := by
    rw [Ty.members?_moved]
    cases t.members? <;> rfl
  cases t with
  | recur key =>
    refine does_getSession fun s s' hs => ?_
    dsimp only [Ty.moved]
    rw [hs.recType?]
    cases s.recType? key with
    | some definition =>
      refine .pure ?_
      rw [Ty.members?_moved]
      cases definition.members? <;> rfl
    | none => exact .fail rfl
  | _ => exact .pure hown

lemma does_boxValue (t : Ty) (value : Term) :
    m.Maps (Term.moved m.toMove) (boxValue t value)
      (boxValue (t.moved m.toMove) (value.moved m.toMove)) := by
  refine (does_unionMembers t).andThen fun members => ?_
  rw [Term.ty_moved, Ty.contains_moved m.faithful]
  split
  · exact .pure rfl
  · exact .fail rfl

/-! ### Application -/

section

variable {ev ev' : Expr → Eval Term} (hev : m.Evaluators ev ev')
include hev

lemma does_applyMap (env : Env) (kind : MapKind) (arg : Term) :
    m.Maps (Term.moved m.toMove) (applyMap ev env kind arg)
      (applyMap ev' (env.moved m.toMove) (kind.moved m.toMove) (arg.moved m.toMove)) := by
  cases kind with
  | function param body =>
    have h := does_withEnv (env.bind param arg) (hev body)
    rwa [Env.bind_moved] at h
  | recFunction this param body =>
    have h := does_withEnv ((env.bind this (.map env (.recFunction this param body))).bind
      param arg) (hev body)
    rwa [Env.bind_moved, Env.bind_moved] at h
  | module =>
    dsimp only [applyMap, MapKind.moved]
    rw [Term.string?_moved]
    cases arg.string? with
    | none => exact .fail (congrArg Cause.notCallable (Term.ty_moved _ (.map env .module)))
    | some field =>
      refine (does_build (Build.moves_name field)).andThen fun x => ?_
      rw [id, Env.get?_moved]
      cases env.get? x with
      | some value => exact .pure rfl
      | none => exact .fail rfl

/-- Application of what has to be a map. -/
lemma does_applyValue (f arg : Term) {k k' : Option (Env × MapKind) → Eval Term}
    (hsome : ∀ m, k (some m) = applyMap ev m.1 m.2 arg) (hnone : k none = fail (.notCallable f.ty))
    (hsome' : ∀ m', k' (some m') = applyMap ev' m'.1 m'.2 (arg.moved m.toMove))
    (hnone' : k' none = fail (.notCallable (f.moved m.toMove).ty)) :
    m.Maps (Term.moved m.toMove) (mapValue? f >>= k) (mapValue? (f.moved m.toMove) >>= k') := by
  refine (does_mapValue? f).andThen fun value => ?_
  cases value with
  | some value =>
    rw [hsome, Option.map_some, hsome']
    exact does_applyMap hev value.1 value.2 arg
  | none =>
    rw [hnone, Option.map_none, hnone']
    exact .fail (congrArg Cause.notCallable (Term.ty_moved _ f))

lemma does_apply (f arg : Term) :
    m.Maps (Term.moved m.toMove) (apply ev f arg)
      (apply ev' (f.moved m.toMove) (arg.moved m.toMove)) := by
  cases f with
  | var v =>
    obtain ⟨tag, ty⟩ := v
    cases ty with
    | closure dom range =>
      dsimp only [apply, Term.moved, Var.moved, Ty.moved]
      rw [Term.ty_moved, Ty.eq_moved m.faithful]
      split
      · exact (does_toRuntime arg).andThen fun runtime =>
          does_emit .apply [.var ⟨tag, .closure dom range⟩, runtime] range
      · exact .fail rfl
    | _ => exact does_applyValue hev _ arg (fun _ => rfl) rfl (fun _ => rfl) rfl
  | type ty =>
    cases ty with
    | union members => exact does_boxValue (.union members) arg
    | recur key => exact does_boxValue (.recur key) arg
    | _ => exact does_applyValue hev _ arg (fun _ => rfl) rfl (fun _ => rfl) rfl
  | _ => exact does_applyValue hev _ arg (fun _ => rfl) rfl (fun _ => rfl) rfl

/-! ### Modules -/

omit hev in
lemma does_fieldKey (x : Name) : m.Maps (Term.moved m.toMove) (fieldKey x) (fieldKey x) := by
  refine does_getSession fun s s' hs => .pure ?_
  rw [hs.store]
  rfl

omit hev in
/-- A field of what has to be a map. -/
lemma does_fieldOf (op : ModuleOp) (t : Term) (x : Name) {k : Env × MapKind → Eval Term}
    (hk : ∀ value, k value = (value.1.get? x).elim (fail (.noField x)) pure) :
    m.Maps (Term.moved m.toMove) (mapValue (.module op) t >>= k)
      (mapValue (.module op) (t.moved m.toMove) >>= k) := by
  refine (does_mapValue (.module op) t).andThen fun value => ?_
  rw [hk, hk]
  dsimp only [movedMap]
  rw [Env.get?_moved]
  cases value.1.get? x with
  | some value => exact .pure rfl
  | none => exact .fail rfl

omit hev in
lemma does_openField (op : ModuleOp) (t : Term) (x : Name) :
    m.Maps (Term.moved m.toMove) (openField op t x) (openField op (t.moved m.toMove) x) := by
  cases t with
  | var v =>
    obtain ⟨tag, ty⟩ := v
    cases ty with
    | map fields kind =>
      dsimp only [openField, Term.moved, Var.moved, Ty.moved]
      rw [Ty.get?_moved]
      cases Fields.get? fields x with
      | some ty => exact does_readField ⟨tag, .map fields kind⟩ x ty
      | none => exact .fail rfl
    | _ => exact does_fieldOf op _ x fun value => by dsimp only; cases value.1.get? x <;> rfl
  | _ => exact does_fieldOf op _ x fun value => by dsimp only; cases value.1.get? x <;> rfl

lemma does_mapFields (f : Term) (fields : Fields Term) :
    m.Maps (Fields.moved m.toMove) (mapFields ev f fields)
      (mapFields ev' (f.moved m.toMove) (Fields.moved m.toMove fields)) := by
  induction fields with
  | nil => exact .pure rfl
  | cons e rest ih =>
    obtain ⟨x, value⟩ := e
    exact (does_fieldKey x).andThen fun key => (does_apply hev f key).andThen fun partly =>
      (does_apply hev partly value).andThen fun new => ih.andThen fun others => .pure rfl

lemma does_foldFields (f acc : Term) (fields : Fields Term) :
    m.Maps (Term.moved m.toMove) (foldFields ev f acc fields)
      (foldFields ev' (f.moved m.toMove) (acc.moved m.toMove) (Fields.moved m.toMove fields)) := by
  induction fields generalizing acc with
  | nil => exact .pure rfl
  | cons e rest ih =>
    obtain ⟨x, value⟩ := e
    exact (does_fieldKey x).andThen fun key => (does_apply hev f acc).andThen fun withState =>
      (does_apply hev withState key).andThen fun withKey =>
      (does_apply hev withKey value).andThen fun acc => ih acc

omit hev in
lemma bindAll_moved (fields : List Name) (values : List Term) (env : Env) :
    (fields.zip (values.map (Term.moved m.toMove))).foldl (fun env e => env.bind e.1 e.2)
        (env.moved m.toMove) =
      ((fields.zip values).foldl (fun env e => env.bind e.1 e.2) env).moved m.toMove := by
  induction fields generalizing values env with
  | nil => rfl
  | cons x rest ih =>
    cases values with
    | nil => rfl
    | cons value values =>
      rw [List.map_cons, List.zip_cons_cons, List.zip_cons_cons, List.foldl_cons, List.foldl_cons,
        ← Env.bind_moved, ih]

omit hev in
lemma eraseAll_moved (xs : List Name) (fields : Fields Term) :
    xs.foldl Fields.erase (Fields.moved m.toMove fields) =
      Fields.moved m.toMove (xs.foldl Fields.erase fields) := by
  induction xs generalizing fields with
  | nil => rfl
  | cons x rest ih =>
    rw [List.foldl_cons, List.foldl_cons, ← ih, Fields.moved, Fields.erase_map]
    rfl

lemma does_moduleOp (op : ModuleOp) (args : List Term) :
    m.Maps (Term.moved m.toMove) (moduleOp ev op args)
      (moduleOp ev' op (args.map (Term.moved m.toMove))) := by
  -- Fields keep their names, so they keep their order.
  cases op with
  | create fields =>
    dsimp only [moduleOp]
    rw [List.length_map]
    split
    · refine .pure ?_
      have hzip : fields.zip (args.map (Term.moved m.toMove)) =
          (fields.zip args).map fun e => (e.1, e.2.moved m.toMove) :=
        List.zip_map_right ..
      rw [hzip, Fields.ofList_map, Term.moved, Env.moved, Env.movedFields_eq]
      rfl
    · exact .fail rfl
  | extend fields =>
    cases args with
    | nil => exact .fail rfl
    | cons t values =>
      refine (does_mapValue _ t).andThen fun value => ?_
      dsimp only [movedMap]
      rw [List.length_map]
      split
      · refine .pure ?_
        rw [Term.moved, ← bindAll_moved]
      · exact .fail rfl
  | without fields =>
    refine (does_operand _ args).andThen fun t => (does_mapValue _ t).andThen fun value => .pure ?_
    rw [Env.visible_moved, eraseAll_moved, Term.moved, Env.moved, Env.movedFields_eq]
  | «open» x => exact (does_operand _ args).andThen fun t => does_openField _ t x
  | getField x => exact (does_operand _ args).andThen fun t => does_openField _ t x
  | hasMember x =>
    refine (does_operand _ args).andThen fun t => .pure ?_
    rw [Term.hasMember_moved, Term.moved]
  | map =>
    refine (does_operands₂ _ args).andThen fun p => (does_mapValue _ p.2).andThen fun value => ?_
    dsimp only [movedMap]
    rw [Env.visible_moved]
    refine (does_mapFields hev p.1 value.1.visible).andThen fun fields => .pure ?_
    rw [Term.moved, Env.moved, Env.movedFields_eq]
    rfl
  | fold =>
    refine (does_operands₃ _ args).andThen fun p => (does_mapValue _ p.2.2).andThen
      fun value => ?_
    dsimp only [movedMap]
    rw [Env.visible_moved]
    exact does_foldFields hev p.1 p.2.1 value.1.visible

omit hev in
lemma does_layoutOp (op : LayoutOp) (args : List Term) :
    m.Maps (Term.moved m.toMove) (layoutOp op args)
      (layoutOp op (args.map (Term.moved m.toMove))) := by
  refine (does_operand _ args).andThen fun t => ?_
  cases op with
  | pack layout =>
    refine (does_mapValue _ t).andThen fun value => ?_
    refine (does_rename (fun _ => rfl) (Rename.moves_env m.faithful value.1)).andThen fun r => ?_
    have hresult := does_bindResult (same_op (m := m) (.layout (.pack layout))
      [.tuple (r.2.args.map .var)] (.layout layout r.1 value.2)) (.layout layout r.1 value.2)
    simpa [Term.moved, Ty.moved, Renaming.moved, movedMap, Function.comp_def] using hresult
  | read i =>
    have hfail : m.Maps (Term.moved m.toMove) (fail (.notLayout t.ty))
        (fail (.notLayout (t.moved m.toMove).ty)) :=
      .fail (congrArg Cause.notLayout (Term.ty_moved _ t))
    cases t with
    | var v =>
      obtain ⟨tag, ty⟩ := v
      cases ty with
      | layout l env kind =>
        refine (does_envVars env).andThen fun vars => ?_
        rw [List.getElem?_map]
        cases vars[i]? with
        | some field =>
          have hread := does_emit (m := m) (.layout (.read i)) [.var ⟨tag, .layout l env kind⟩]
            field.ty
          rw [← Var.ty_moved] at hread
          exact hread
        | none => exact hfail
      | _ => exact hfail
    | _ => exact hfail

end

end Residual.Comparison
