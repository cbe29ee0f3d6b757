import Residual.Proofs.Typed.Numbering
import Residual.Proofs.Typed.Twins

/-!
Renaming does the same to twins.

The forms of environments play no part in it: the visible bindings are gone through in order, and
the result is entered in the table. So renamed twins are twins, with the same new tags.
-/

namespace Residual

variable {held : MapKind → Prop}

/-- Renamings that know the same, up to the forms of environments. -/
structure Renaming.Twin (held : MapKind → Prop) (r r' : Renaming) : Prop where
  envs : EnvTable.Twin held r.envs r'.envs
  tags : r.tags = r'.tags
  renamed : r.renamed = r'.renamed
  args : List.Forall₂ (Var.Twin held) r.args r'.args
  params : List.Forall₂ (Var.Twin held) r.params r'.params

namespace Rename

variable {α β : Type} {r r' : Renaming}

/-- From twin renamings the two actions go to twin renamings with related results, or both find
no tag left. -/
def Paired (held : MapKind → Prop) (r r' : Renaming) (act act' : Rename α) (R : α → α → Prop) :
    Prop :=
  r.Twin held r' →
    Option.Rel (fun a a' => R a.1 a'.1 ∧ a.2.Twin held a'.2) (act.run r) (act'.run r')

namespace Paired

variable {m m' : Rename α} {f f' : α → Rename β} {R : α → α → Prop} {S : β → β → Prop}

lemma pure {a a' : α} (h : R a a') : Paired held r r' (pure a) (pure a') R :=
  fun hr => .some ⟨h, hr⟩

lemma bind (hm : Paired held r r' m m' R)
    (hf : ∀ a a' s s', R a a' → Paired held s s' (f a) (f' a') S) :
    Paired held r r' (m >>= f) (m' >>= f') S := by
  intro hr
  have h := hm hr
  rw [StateT.run_bind, StateT.run_bind]
  generalize m.run r = x at h
  generalize m'.run r' = x' at h
  cases h with
  | none => exact .none
  | some h => exact hf _ _ _ _ h.1 h.2

end Paired

lemma paired_freshTag : Paired held r r' freshTag freshTag fun a b => a = b := by
  intro hr
  have hrun : ∀ r : Renaming, freshTag.run r =
      r.tags.fresh?.map fun a => (a.1, { r with tags := a.2 }) := by
    intro r
    change (r.tags.fresh?).bind _ = _
    cases r.tags.fresh? <;> rfl
  rw [hrun, hrun, hr.tags]
  cases r'.tags.fresh? with
  | none => exact .none
  | some a => exact .some ⟨rfl, { hr with tags := rfl }⟩

lemma paired_freshVar {s t : Ty} (h : s.Twin held t) :
    Paired held r r' (freshVar s) (freshVar t) (Var.Twin held) :=
  paired_freshTag.bind fun _ _ _ _ htag => .pure (Var.twin_iff.2 ⟨htag, h⟩)

/-- A use reads the tag it was given, or takes the next one. -/
theorem run_useVar_eq (v : Var) (r : Renaming) : (useVar v).run r =
    match r.renamed.lookup v.tag with
    | some tag => some (⟨tag, v.ty⟩, r)
    | none => r.tags.fresh?.map fun a => (⟨a.1, v.ty⟩,
        { r with
          tags := a.2
          renamed := (v.tag, a.1) :: r.renamed
          args := r.args ++ [v]
          params := r.params ++ [⟨a.1, v.ty⟩] }) := by
  unfold useVar
  simp only [StateT.run_bind, StateT.run_get, Option.pure_def, Option.bind_eq_bind,
    Option.bind_some]
  cases r.renamed.lookup v.tag with
  | some tag => rfl
  | none =>
    change ((r.tags.fresh?).bind _).bind _ = _
    cases r.tags.fresh? <;> rfl

lemma paired_useVar {v v' : Var} (h : v.Twin held v') :
    Paired held r r' (useVar v) (useVar v') (Var.Twin held) := by
  intro hr
  obtain ⟨htag, hty⟩ := Var.twin_iff.1 h
  have hnew : ∀ tag : Tag, (Var.mk tag v.ty).Twin held ⟨tag, v'.ty⟩ :=
    fun tag => Var.twin_iff.2 ⟨rfl, hty⟩
  rw [run_useVar_eq, run_useVar_eq, hr.renamed, htag, hr.tags]
  cases r'.renamed.lookup v'.tag with
  | some tag => exact .some ⟨hnew tag, hr⟩
  | none =>
    cases r'.tags.fresh? with
    | none => exact .none
    | some a =>
      exact .some ⟨hnew a.1, hr.envs, rfl, rfl, List.rel_append hr.args (.cons h .nil),
        List.rel_append hr.params (.cons (hnew a.1) .nil)⟩

lemma paired_consFields {m n : Fields Term} (h : Fields.Twin held m n) :
    Paired held r r' (consFields m) (consFields n) (Env.Twin held) := by
  intro hr
  obtain ⟨hsymbol, hvalue, henvs⟩ := hr.envs.enter h
  exact .some ⟨Env.twin_iff.2 hvalue, { hr with envs := henvs }⟩

lemma paired_inOrder {m n : List (Name × Term)} (hmn : Fields.Twin held m n)
    (h : ∀ d ∈ m, ∀ e ∈ n, d.2.Twin held e.2 →
      ∀ r r', Paired held r r' (term d.2) (term e.2) (Term.Twin held)) :
    Paired held r r' (inOrder (fields m)) (inOrder (fields n)) (Fields.Twin held) := by
  replace hmn := Fields.twin_iff.1 hmn
  unfold inOrder
  induction hmn generalizing r r' with
  | nil => exact .pure Fields.twin_nil
  | @cons d e m n hde _ ih =>
    obtain ⟨x, s⟩ := d
    obtain ⟨y, t⟩ := e
    obtain ⟨hd, hm⟩ := List.forall_mem_cons.1 h
    obtain ⟨hde', -⟩ := List.forall_mem_cons.1 hd
    rw [fields, fields, List.mapM_cons, List.mapM_cons]
    refine Paired.bind (R := Fields.Entry (Term.Twin held)) ?_ fun a a' s s' ha => ?_
    · exact (hde' hde.2 r r').bind fun _ _ _ _ ht => .pure ⟨hde.1, ht⟩
    · refine (ih fun d hd e he => hm d hd e (List.mem_cons_of_mem _ he)).bind
        fun as as' _ _ has => .pure ?_
      exact Fields.twin_cons_iff.2 ⟨ha, has⟩

/-- Renaming keeps the names. -/
lemma names_inOrder {l : List (Name × Rename Term)} {m : List (Name × Term)} {s : Renaming}
    (h : (inOrder l).run r = some (m, s)) : m.map Prod.fst = l.map Prod.fst := by
  induction l generalizing r m s with
  | nil =>
    obtain ⟨rfl, -⟩ := run_pure.1 h
    rfl
  | cons b l ih =>
    rw [inOrder, List.mapM_cons] at h
    obtain ⟨e, s₁, he, h⟩ := run_bind.1 h
    obtain ⟨n, s₂, hn, h⟩ := run_bind.1 h
    obtain ⟨t, s₃, -, he⟩ := run_bind.1 he
    obtain ⟨rfl, -⟩ := run_pure.1 he
    obtain ⟨rfl, -⟩ := run_pure.1 h
    rw [List.map_cons, List.map_cons, ih hn]

/-- The form of an environment does not matter: its visible bindings are renamed in order. -/
theorem env_eq {e : Env} (h : e.Formed) :
    env e = inOrder (fields e.visible) >>= consFields := by
  cases e with
  | plain m => rfl
  | consed s m => rfl
  | restricted m used =>
    have hpick : used.pick m = m.filter fun e => used.contains e.1 :=
      Captures.pick_eq_filter h.2.2 h.1
    rw [env, pick_fields, hpick]
    refine StateT.ext fun r => ?_
    rw [StateT.run_bind, StateT.run_bind]
    cases hrun : (inOrder (fields (m.filter fun e => used.contains e.1))).run r with
    | none =>
      rw [Env.visible, hrun]
      rfl
    | some a =>
      obtain ⟨n, s⟩ := a
      have hasc : Fields.Ascending n :=
        ascending_of_names ((names_inOrder hrun).trans (fields_names _))
          (List.Pairwise.filter _ h.1)
      rw [Env.visible, hrun]
      change (consFields (Fields.ofList n)).run s = (consFields n).run s
      rw [hasc.ofList_eq]

mutual

lemma paired_term (t t' : Term) (hf : t.Formed) (hf' : t'.Formed) (h : t.Twin held t')
    (r r' : Renaming) : Paired held r r' (term t) (term t') (Term.Twin held) := by
  -- Twins have one constructor, and both sides rename their parts in the same order.
  match t with
  | .type s =>
    cases h.heads with
    | type hs => exact .pure h
  | .lit l =>
    cases h.heads with
    | lit l => exact .pure h
  | .var v =>
    cases h.heads with
    | @var _ v' hv =>
      rw [term, term, (Var.twin_iff.1 hv).2.isUnit]
      split
      · exact .pure (Var.twin_iff.1 hv).2.ofUnit
      · exact (paired_useVar hv).bind fun _ _ _ _ hu => .pure (Term.twin_var_iff.2 hu)
  | .tuple items =>
    cases h.heads with
    | @tuple _ items' hi =>
      exact (paired_terms items items' hf hf' hi r r').bind fun _ _ _ _ hts =>
        .pure (Term.twin_tuple_iff.2 hts)
  | .map d kind =>
    cases h.heads with
    | @map _ e _ he hk =>
      exact (paired_env d e hf.1 hf'.1 he r r').bind fun _ _ _ _ henv =>
        .pure (Term.twin_map_iff.2 ⟨henv, rfl, hk⟩)
  | .box inner ty =>
    cases h.heads with
    | @box _ inner' _ ty' hi hty =>
      exact (paired_term inner inner' hf.1 hf'.1 hi r r').bind fun _ _ _ _ ht =>
        .pure (Term.twin_box_iff.2 ⟨ht, hty⟩)
  -- Of the operations only the nominal value stands in a value.
  | .op o args ty =>
    obtain ⟨rfl, hargs, -⟩ := hf
    cases h.heads with
    | op _ _ args' _ ty' =>
      obtain ⟨hsame, hkinds⟩ := h
      rw [Term.kinds, Term.kindsOfAll_eq, List.forall_mem_append] at hkinds
      simp only [Term.canon, Term.canonAll_eq, Term.op.injEq, true_and] at hsame
      have hargs' : List.Forall₂ (Term.Twin held) args args' :=
        Twin.forall₂_iff.2 ⟨hsame.1, hkinds.1⟩
      exact (paired_terms args args' hargs hf'.2.1 hargs' r r').bind fun _ _ _ _ hts =>
        .pure (Term.twin_op hts ⟨hsame.2, hkinds.2⟩)
  | .letIn _ _ _ _ | .state _ _ _ | .call _ _ _ _ => exact hf.elim
termination_by structural t

lemma paired_terms (ts ts' : List Term) (hf : Term.AllFormed ts) (hf' : Term.AllFormed ts')
    (h : List.Forall₂ (Term.Twin held) ts ts') (r r' : Renaming) :
    Paired held r r' (terms ts) (terms ts') (List.Forall₂ (Term.Twin held)) := by
  match ts with
  | [] =>
    cases h
    exact .pure .nil
  | t :: rest =>
    cases h with
    | @cons _ t' _ rest' ht hrest =>
      exact (paired_term t t' hf.1 hf'.1 ht r r').bind fun _ _ s s' hfirst =>
        (paired_terms rest rest' hf.2 hf'.2 hrest s s').bind fun _ _ _ _ hothers =>
          .pure (.cons hfirst hothers)
termination_by structural ts

lemma paired_env (d e : Env) (hf : d.Formed) (hf' : e.Formed) (h : d.Twin held e)
    (r r' : Renaming) : Paired held r r' (env d) (env e) (Env.Twin held) := by
  have hvisible := Env.twin_iff.1 h
  have hformed : ∀ b ∈ e.visible, b.2.Formed := Env.fieldsFormed_iff.1 hf'.visible.2
  rw [env_eq hf, env_eq hf']
  match d with
  | .plain m =>
    refine (paired_inOrder hvisible fun a ha b hb hab r r' => ?_).bind
      fun _ _ _ _ hm => paired_consFields hm
    exact paired_fields m hf.2 a ha b.2 (hformed b hb) hab r r'
  | .restricted m used =>
    refine (paired_inOrder hvisible fun a ha b hb hab r r' => ?_).bind
      fun _ _ _ _ hm => paired_consFields hm
    exact paired_fields m hf.2.1 a (List.mem_filter.1 ha).1 b.2 (hformed b hb) hab r r'
  | .consed _ m =>
    refine (paired_inOrder hvisible fun a ha b hb hab r r' => ?_).bind
      fun _ _ _ _ hm => paired_consFields hm
    exact paired_fields m hf.2 a ha b.2 (hformed b hb) hab r r'
termination_by structural d

lemma paired_fields (m : List (Name × Term)) (hf : Env.FieldsFormed m) :
    ∀ d ∈ m, ∀ t' : Term, t'.Formed → d.2.Twin held t' →
      ∀ r r', Paired held r r' (term d.2) (term t') (Term.Twin held) := by
  match m with
  | [] => exact fun d hd => absurd hd List.not_mem_nil
  | (x, t) :: rest =>
    exact List.forall_mem_cons.2 ⟨fun t' hf' h r r' => paired_term t t' hf.1 hf' h r r',
      paired_fields rest hf.2⟩
termination_by structural m

end

end Rename

end Residual
