import Residual.Proofs.Typed.Numbering
import Residual.Proofs.Typed.RenameGrowth
import Residual.Proofs.Typed.Sound

/-!
Renaming makes sound values from sound values, with types of the same content. The environments in
the result are those of the table, so the result can be held inside a type. Each of its variables
stands for one of the value, under the tag that the renaming has for it.
-/

namespace Residual

/-- The environments of the table are sound. -/
def EnvTable.Sound (asks : Demands) (t : EnvTable) : Prop :=
  ∀ m ∈ t.entries, ∀ e ∈ m, e.2.Sound ⟨t, asks⟩ true

lemma EnvTable.entries_enter (t : EnvTable) (m : Fields Term) :
    (t.enter m).2.entries[(t.enter m).1.symbol]? = some (t.enter m).1.value :=
  (Interner.get?_eq_some_iff.1 (@Interner.get?_intern_symbol _ ⟨Fields.sameContent⟩ t m)).2

/-- Entering sound bindings in a sound table gives sound bindings. -/
theorem EnvTable.Sound.enter {asks : Demands} {t : EnvTable} (h : t.Sound asks)
    {m : Fields Term} (hm : ∀ e ∈ m, e.2.Sound ⟨t, asks⟩ true) :
    (t.enter m).2.Sound asks ∧
      ∀ e ∈ (t.enter m).1.value, e.2.Sound ⟨(t.enter m).2, asks⟩ true := by
  have hle : Ground.Le ⟨t, asks⟩ ⟨(t.enter m).2, asks⟩ :=
    ⟨EnvTable.extends_enter t m, rfl⟩
  refine ⟨fun n hn e he => ?_, fun e he => ?_⟩
  · rcases @Interner.entries_intern _ ⟨Fields.sameContent⟩ t m n hn with rfl | hn
    · exact (hm e he).mono hle
    · exact (h n hn e he).mono hle
  · rcases @Interner.intern_mem _ ⟨Fields.sameContent⟩ t m with hv | hv
    · have he' : e ∈ m := hv ▸ he
      exact (hm e he').mono hle
    · exact (h _ hv e he).mono hle

lemma Ty.codeFields_eq {as bs : List (Name × Ty)}
    (h : as.map (fun e => (e.1, e.2.code)) = bs.map fun e => (e.1, e.2.code)) :
    Ty.codeFields as = Ty.codeFields bs := by
  induction as generalizing bs with
  | nil => cases bs <;> simp_all
  | cons a as ih =>
    cases bs with
    | nil => simp at h
    | cons b bs =>
      simp only [List.map_cons, List.cons.injEq, Prod.mk.injEq] at h
      rw [Ty.codeFields, Ty.codeFields, h.1.1, h.1.2, ih h.2]

/-- Bindings of the same content have types of the same content. -/
theorem Fields.tys_of_code {m n : Fields Term} (h : Fields.code m = Fields.code n) :
    m.map (fun e => (e.1, e.2.ty.code)) = n.map fun e => (e.1, e.2.ty.code) := by
  rw [Fields.code_eq_iff] at h
  induction m generalizing n with
  | nil => cases n <;> simp_all
  | cons d rest ih =>
    cases n with
    | nil => simp at h
    | cons e rest' =>
      simp only [List.map_cons, List.cons.injEq, Prod.mk.injEq] at h ⊢
      exact ⟨⟨h.1.1, Term.tyCode_of_code _ _ h.1.2⟩, ih h.2⟩

namespace Renaming

/-- The second renaming has the environments of the first, and its tags for the variables that
have one. -/
structure Later (r s : Renaming) : Prop where
  envs : r.envs.Extends s.envs
  kept : ∀ old new, r.renamed.lookup old = some new → s.renamed.lookup old = some new

lemma Later.refl (r : Renaming) : r.Later r := ⟨.refl _, fun _ _ h => h⟩

lemma Later.trans {r s t : Renaming} (h : r.Later s) (k : s.Later t) : r.Later t :=
  ⟨h.envs.trans k.envs, fun old new hnew => k.kept old new (h.kept old new hnew)⟩

lemma Later.ground {r s : Renaming} (h : r.Later s) (asks : Demands) :
    Ground.Le ⟨r.envs, asks⟩ ⟨s.envs, asks⟩ :=
  ⟨h.envs, rfl⟩

/-- Each of the new variables stands for one of the old ones, with run-time data. -/
def Carries (s : Renaming) (olds news : List Var) : Prop :=
  ∀ v' ∈ news, ∃ v ∈ olds, v.ty.isUnit = false ∧ v'.ty.code = v.ty.code ∧
    s.renamed.lookup v.tag = some v'.tag

lemma Carries.mono {r s : Renaming} (h : r.Later s) {olds news : List Var}
    (hc : r.Carries olds news) : s.Carries olds news := by
  intro v' hv'
  obtain ⟨v, hv, hdata, hty, hlookup⟩ := hc v' hv'
  exact ⟨v, hv, hdata, hty, h.kept _ _ hlookup⟩

lemma Carries.append {s : Renaming} {olds olds' news news' : List Var}
    (h : s.Carries olds news) (h' : s.Carries olds' news') :
    s.Carries (olds ++ olds') (news ++ news') := by
  intro v' hv'
  rcases List.mem_append.1 hv' with hv' | hv'
  · obtain ⟨v, hv, hrest⟩ := h v' hv'
    exact ⟨v, List.mem_append_left _ hv, hrest⟩
  · obtain ⟨v, hv, hrest⟩ := h' v' hv'
    exact ⟨v, List.mem_append_right _ hv, hrest⟩

lemma carries_nil (s : Renaming) (olds : List Var) : s.Carries olds [] :=
  fun _ h => absurd h List.not_mem_nil

/-- Variables with the same tags and types stand for the same old ones. -/
theorem Carries.of_marks {s : Renaming} {olds news news' : List Var} (h : s.Carries olds news)
    (hmarks : news'.map (Var.mark id) = news.map (Var.mark id)) : s.Carries olds news' := by
  intro v' hv'
  have hmem : v'.mark id ∈ news.map (Var.mark id) := hmarks ▸ List.mem_map_of_mem hv'
  obtain ⟨u, hu, hmark⟩ := List.mem_map.1 hmem
  obtain ⟨htag, hty⟩ := Prod.mk.inj hmark
  obtain ⟨v, hv, hdata, hvty, hlookup⟩ := h u hu
  exact ⟨v, hv, hdata, hty.symm.trans hvty, hlookup.trans (congrArg some htag)⟩

end Renaming

namespace Rename

variable {α β : Type} {asks : Demands} {r s : Renaming}

/-- From a renaming with sound environments the action goes to a later one with sound
environments, and its result has the property there. -/
def Sounds (asks : Demands) (r : Renaming) (act : Rename α) (Q : Renaming → α → Prop) : Prop :=
  r.envs.Sound asks → ∀ a s, act.run r = some (a, s) → s.envs.Sound asks ∧ r.Later s ∧ Q s a

lemma sounds_pure {Q : Renaming → α → Prop} {a : α} (h : Q r a) :
    Sounds asks r (pure a) Q := by
  intro hr b s hrun
  obtain ⟨rfl, rfl⟩ := run_pure.1 hrun
  exact ⟨hr, .refl _, h⟩

lemma Sounds.bind {m : Rename α} {f : α → Rename β} {P : Renaming → α → Prop}
    {Q : Renaming → β → Prop} (hm : Sounds asks r m P)
    (hf : ∀ a s, r.Later s → P s a → Sounds asks s (f a) Q) : Sounds asks r (m >>= f) Q := by
  intro hr b t hrun
  obtain ⟨a, s, h₁, h₂⟩ := run_bind.1 hrun
  obtain ⟨hs, hlater, hP⟩ := hm hr a s h₁
  obtain ⟨ht, hlater', hQ⟩ := hf a s hlater hP hs b t h₂
  exact ⟨ht, hlater.trans hlater', hQ⟩

/-- What becomes of a value. -/
structure Renamed (asks : Demands) (s : Renaming) (t t' : Term) : Prop where
  sound : t'.Sound ⟨s.envs, asks⟩ true
  ty : t'.ty.code = t.ty.code
  vars : s.Carries t.vars t'.vars

/-- What becomes of the values in a list. -/
structure AllRenamed (asks : Demands) (s : Renaming) (ts ts' : List Term) : Prop where
  sound : ∀ t ∈ ts', t.Sound ⟨s.envs, asks⟩ true
  tys : ts'.map (fun t => t.ty.code) = ts.map fun t => t.ty.code
  vars : s.Carries (Term.varsOfAll ts) (Term.varsOfAll ts')

/-- What becomes of the bindings of an environment. -/
structure FieldsRenamed (asks : Demands) (s : Renaming) (m n : Fields Term) : Prop where
  sound : ∀ e ∈ n, e.2.Sound ⟨s.envs, asks⟩ true
  tys : n.map (fun e => (e.1, e.2.ty.code)) = m.map fun e => (e.1, e.2.ty.code)
  vars : s.Carries (Env.varsOfFields (fun _ => true) m) (Env.varsOfFields (fun _ => true) n)

/-- What becomes of an environment. -/
structure EnvRenamed (asks : Demands) (s : Renaming) (env env' : Env) : Prop where
  sound : env'.Sound ⟨s.envs, asks⟩ true
  tys : env'.visible.map (fun e => (e.1, e.2.ty.code)) =
    env.visible.map fun e => (e.1, e.2.ty.code)
  vars : s.Carries env.vars env'.vars

lemma Renamed.mono {s' : Renaming} {t t' : Term} (h : Renamed asks s t t') (hs : s.Later s') :
    Renamed asks s' t t' :=
  ⟨h.sound.mono (hs.ground asks), h.ty, h.vars.mono hs⟩

lemma AllRenamed.tuple {ts ts' : List Term} (h : AllRenamed asks s ts ts') :
    Renamed asks s (.tuple ts) (.tuple ts') := by
  refine ⟨Term.allSound_iff.2 h.sound, ?_, h.vars⟩
  rw [Term.ty, Term.ty, Ty.code, Ty.code, Term.tys_eq, Term.tys_eq, Ty.codeAll_eq_iff.2 ?_]
  rw [List.map_map, List.map_map]
  exact h.tys

lemma EnvRenamed.map {env env' : Env} (h : EnvRenamed asks s env env') (kind : MapKind) :
    Renamed asks s (.map env kind) (.map env' kind) := by
  refine ⟨h.sound, ?_, h.vars⟩
  rw [Term.ty, Term.ty, Ty.code, Ty.code, Term.envTys_eq, Term.envTys_eq, Ty.codeFields_eq ?_]
  rw [List.map_map, List.map_map]
  exact h.tys

lemma sounds_useVar (v : Var) : Sounds asks r (useVar v) fun s u =>
    u.ty = v.ty ∧ s.renamed.lookup v.tag = some u.tag := by
  intro hr u s hrun
  rcases run_useVar.1 hrun with ⟨tag, hold, rfl, rfl⟩ | ⟨hnew, -, rfl, rfl⟩
  · exact ⟨hr, .refl _, rfl, hold⟩
  · refine ⟨hr, ⟨.refl _, fun old new hlookup => ?_⟩, rfl, by simp⟩
    have hne : old ≠ v.tag := by
      rintro rfl
      rw [hnew] at hlookup
      cases hlookup
    dsimp only
    rw [List.lookup_cons, beq_false_of_ne hne]
    exact hlookup

/-- What is entered has the content of the bindings, and is what the table has. -/
lemma sounds_consFields {m n : Fields Term} (h : FieldsRenamed asks r m n) {env : Env}
    (hvisible : env.visible = m) :
    Sounds asks r (consFields n) fun s e => EnvRenamed asks s env e := by
  intro hr e s hrun
  obtain ⟨rfl, rfl⟩ := run_consFields.1 hrun
  obtain ⟨htable, hvalue⟩ := hr.enter h.sound
  have hcode := EnvTable.code_enter r.envs n
  have hlater : r.Later { r with envs := (r.envs.enter n).2 } :=
    ⟨EnvTable.extends_enter r.envs n, fun _ _ h => h⟩
  refine ⟨htable, hlater, ⟨fun _ => EnvTable.entries_enter r.envs n,
    Env.fieldsSound_iff.2 fun e he _ => hvalue e he⟩, ?_, ?_⟩
  · rw [hvisible, ← h.tys]
    exact Fields.tys_of_code hcode
  · rw [Env.vars_eq_visible env, hvisible]
    exact (h.vars.mono hlater).of_marks (Fields.marks_of_code hcode)

lemma FieldsRenamed.cons {x : Name} {t t' : Term} {m n : Fields Term}
    (ht : Renamed asks s t t') (h : FieldsRenamed asks s m n) :
    FieldsRenamed asks s ((x, t) :: m) ((x, t') :: n) := by
  refine ⟨List.forall_mem_cons.2 ⟨ht.sound, h.sound⟩, ?_, ?_⟩
  · rw [List.map_cons, List.map_cons, ht.ty, h.tys]
  · rw [Env.varsOfFields, if_pos rfl, Env.varsOfFields, if_pos rfl]
    exact ht.vars.append h.vars

/-- The bindings of a map, one after the other. -/
theorem sounds_inOrder {m : List (Name × Term)}
    (h : ∀ e ∈ m, ∀ s, r.Later s →
      Sounds asks s (term e.2) fun s t' => Renamed asks s e.2 t') :
    Sounds asks r (inOrder (fields m)) fun s n => FieldsRenamed asks s m n := by
  induction m generalizing r with
  | nil =>
    exact sounds_pure ⟨fun _ he => absurd he List.not_mem_nil, rfl, Renaming.carries_nil _ _⟩
  | cons e rest ih =>
    obtain ⟨x, t⟩ := e
    obtain ⟨ht, hrest⟩ := List.forall_mem_cons.1 h
    rw [fields, inOrder, List.mapM_cons]
    have hfirst : Sounds asks r (do return (x, ← term t)) fun s (e : Name × Term) =>
        e.1 = x ∧ Renamed asks s t e.2 :=
      (ht r (.refl r)).bind fun t' s _ ht' => sounds_pure ⟨rfl, ht'⟩
    refine hfirst.bind fun e s hs he => ?_
    refine (ih fun e he s' hs' => hrest e he s' (hs.trans hs')).bind fun n s' hs' hn =>
      sounds_pure ?_
    obtain ⟨y, t'⟩ := e
    obtain ⟨rfl, ht'⟩ := he
    exact FieldsRenamed.cons (ht'.mono hs') hn

mutual

lemma sounds_term (t : Term) (r : Renaming) (hformed : t.Formed)
    (h : t.Sound ⟨r.envs, asks⟩ false) :
    Sounds asks r (term t) fun s t' => Renamed asks s t t' := by
  -- The table grows on the way, so what was sound before stays so.
  match t with
  | .type _ | .lit _ => exact sounds_pure ⟨h, rfl, Renaming.carries_nil _ _⟩
  | .var v =>
    have hty := Var.sound_iff.1 h
    rw [term]
    split
    · refine sounds_pure ⟨Term.sound_ofUnit _ hty, ?_, ?_⟩
      · cases v
        rw [Term.ty_ofUnit, Term.ty]
      · rw [Term.vars_ofUnit]
        exact Renaming.carries_nil _ _
    · -- A variable keeps its type, which is data.
      rename_i hdata
      refine (sounds_useVar v).bind fun u s hs hu => sounds_pure ⟨?_, ?_, ?_⟩
      · exact Var.sound_iff.2 (hu.1 ▸ hty.mono (hs.ground asks))
      · cases v
        cases u
        exact congrArg Ty.code hu.1
      · exact List.forall_mem_singleton.2
          ⟨v, List.mem_singleton_self v, Bool.eq_false_iff.2 hdata, congrArg Ty.code hu.1, hu.2⟩
  | .tuple items =>
    exact (sounds_terms items r hformed h).bind fun ts s _ hts => sounds_pure hts.tuple
  | .map e kind =>
    exact (sounds_env e r hformed.1 h).bind fun e' s _ he => sounds_pure (he.map kind)
  -- The member that is boxed is found by its code, which renaming keeps.
  | .box inner ty =>
    refine (sounds_term inner r hformed.1 h.1).bind fun t' s hs ht =>
      sounds_pure ⟨⟨ht.sound, h.2.1.mono (hs.ground asks), fun htyped members hm => ?_⟩, rfl,
        ht.vars⟩
    obtain ⟨m, hmem, hcode⟩ := h.2.2 htyped members hm
    exact ⟨m, hmem, hcode.trans ht.ty.symm⟩
  | .op o args ty =>
    obtain ⟨rfl, hargs, -⟩ := hformed
    refine (sounds_terms args r hargs h.1).bind fun ts s _ hts =>
      sounds_pure ⟨⟨Term.allSound_iff.2 hts.sound, h.2⟩, rfl, hts.vars⟩
termination_by structural t

lemma sounds_terms (ts : List Term) (r : Renaming) (hformed : Term.AllFormed ts)
    (h : Term.AllSound ⟨r.envs, asks⟩ false ts) :
    Sounds asks r (terms ts) fun s ts' => AllRenamed asks s ts ts' := by
  match ts with
  | [] =>
    exact sounds_pure ⟨fun _ he => absurd he List.not_mem_nil, rfl, Renaming.carries_nil _ _⟩
  | t :: rest =>
    refine (sounds_term t r hformed.1 h.1).bind fun t' s hs ht => ?_
    refine (sounds_terms rest s hformed.2 (h.2.mono (hs.ground asks))).bind fun ts' s' hs' hts =>
      sounds_pure ⟨List.forall_mem_cons.2 ⟨(ht.mono hs').sound, hts.sound⟩, ?_, ?_⟩
    · rw [List.map_cons, List.map_cons, ht.ty, hts.tys]
    · exact (ht.mono hs').vars.append hts.vars
termination_by structural ts

lemma sounds_env (e : Env) (r : Renaming) (hformed : e.Formed)
    (h : e.Sound ⟨r.envs, asks⟩ false) :
    Sounds asks r (env e) fun s e' => EnvRenamed asks s e e' := by
  have hvisible := h.visible
  match e with
  | .plain m =>
    refine (sounds_inOrder fun e he s hs => ?_).bind fun n s _ hn => sounds_consFields hn rfl
    exact sounds_fields m hformed.2 e he s ((hvisible e he).mono (hs.ground asks))
  | .restricted m used =>
    have hpick : used.pick m = m.filter fun e => used.contains e.1 :=
      Captures.pick_eq_filter hformed.2.2 hformed.1
    rw [env, pick_fields, hpick]
    refine (sounds_inOrder (m := m.filter fun e => used.contains e.1) fun e he s hs => ?_).bind
      fun n s _ hn => ?_
    · exact sounds_fields m hformed.2.1 e (List.mem_filter.1 he).1 s
        ((hvisible e he).mono (hs.ground asks))
    · have hnames : n.map Prod.fst = (m.filter fun e => used.contains e.1).map Prod.fst := by
        have htys := congrArg (List.map Prod.fst) hn.tys
        rwa [List.map_map, List.map_map] at htys
      have hasc : Fields.Ascending n :=
        ascending_of_names hnames (List.Pairwise.filter _ hformed.1)
      rw [hasc.ofList_eq]
      exact sounds_consFields hn rfl
  | .consed _ m =>
    refine (sounds_inOrder fun e he s hs => ?_).bind fun n s _ hn => sounds_consFields hn rfl
    exact sounds_fields m hformed.2 e he s ((hvisible e he).mono (hs.ground asks))
termination_by structural e

lemma sounds_fields (m : List (Name × Term)) (hformed : Env.FieldsFormed m) :
    ∀ e ∈ m, ∀ r : Renaming, e.2.Sound ⟨r.envs, asks⟩ false →
      Sounds asks r (term e.2) fun s t' => Renamed asks s e.2 t' := by
  match m with
  | [] => exact fun e he => absurd he List.not_mem_nil
  | (x, t) :: rest =>
    exact List.forall_mem_cons.2 ⟨fun r h => sounds_term t r hformed.1 h,
      sounds_fields rest hformed.2⟩
termination_by structural m

end

end Rename

end Residual
