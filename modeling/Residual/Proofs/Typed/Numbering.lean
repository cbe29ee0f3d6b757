import Residual.Proofs.Typed.RenameFormed
import Residual.Proofs.Typed.Retag

/-!
Renaming numbers the variables by first occurrence.

Starting without arguments, a renaming gives the first variable it meets the tag `0`, the next
new one the tag `1`, and so on. What it makes of a value is the value with these tags, up to the
form of the environments.
-/

namespace Residual

lemma EnvTable.code_enter (t : EnvTable) (m : Fields Term) :
    Fields.code (t.enter m).1.value = Fields.code m := by
  unfold EnvTable.enter
  cases hs : @Interner.symbol? _ ⟨Fields.sameContent⟩ t m with
  | none => rw [@Interner.intern_of_symbol?_eq_none _ ⟨Fields.sameContent⟩ t m hs]
  | some n =>
    have hget := (@Interner.intern_of_symbol?_eq_some _ ⟨Fields.sameContent⟩ t m n hs).2
    obtain ⟨hlt, hsame, -⟩ := List.findIdx?_eq_some_iff_getElem.1 hs
    have hvalue := (Interner.get?_eq_some_iff.1 hget).2
    rw [List.getElem?_eq_getElem hlt] at hvalue
    rw [← Option.some.inj hvalue]
    exact Fields.sameContent_iff.1 hsame

lemma Fields.get?_ofList {α : Type} {entries : List (Name × α)}
    (h : (entries.map Prod.fst).Nodup) (x : Name) :
    Fields.get? (Fields.ofList entries) x = Fields.get? entries x := by
  suffices ∀ m : Fields α, Fields.get? (entries.foldl (fun m e => Fields.insert m e.1 e.2) m) x =
      (Fields.get? entries x).or (Fields.get? m x) by
    rw [Fields.ofList, this, Fields.get?_nil, Option.or_none]
  induction entries with
  | nil => exact fun m => rfl
  | cons e rest ih =>
    intro m
    obtain ⟨hnew, hrest⟩ := List.nodup_cons.1 h
    rw [List.foldl_cons, ih hrest, Fields.get?_insert, Fields.get?_cons]
    by_cases hx : x = e.1
    · have hnone : Fields.get? rest x = none :=
        Fields.get?_eq_none fun d hd heq =>
          hnew (hx ▸ heq ▸ List.mem_map_of_mem hd)
      simp [hx, hx ▸ hnone]
    · simp [hx]

/-- A map that ascends stays the same when it is entered name by name. -/
theorem Fields.Ascending.ofList_eq {α : Type} {m : Fields α} (h : Fields.Ascending m) :
    Fields.ofList m = m := by
  have hnames : (m.map Prod.fst).Pairwise fun x y => x.index < y.index := List.pairwise_map.2 h
  have hnodup : (m.map Prod.fst).Nodup := by
    refine hnames.imp fun hlt heq => ?_
    rw [heq] at hlt
    exact Nat.lt_irrefl _ hlt
  exact (Fields.ascending_ofList m).ext h (Fields.get?_ofList hnodup)

/-- Lists with the same names, each of them once, are told apart by what they bind. -/
theorem Fields.eq_of_get? {α : Type} {m n : Fields α} (hnodup : (m.map Prod.fst).Nodup)
    (hnames : n.map Prod.fst = m.map Prod.fst)
    (h : ∀ x, Fields.get? m x = Fields.get? n x) : m = n := by
  induction m generalizing n with
  | nil => exact (List.map_eq_nil_iff.1 hnames).symm
  | cons d rest ih =>
    obtain ⟨hnew, hrest⟩ := List.nodup_cons.1 hnodup
    obtain ⟨e, rest', rfl, hname, hrest'⟩ := List.map_eq_cons_iff.1 hnames
    obtain ⟨x, a⟩ := d
    obtain ⟨y, b⟩ := e
    change y = x at hname
    subst hname
    have hab : a = b := by simpa [Fields.get?_cons] using h y
    rw [hab, ih hrest hrest' fun z => ?_]
    by_cases hz : z = y
    · have hnone : ∀ l : Fields α, l.map Prod.fst = rest.map Prod.fst → Fields.get? l y = none := by
        refine fun l hl => Fields.get?_eq_none fun e he heq => hnew ?_
        have hmem : e.1 ∈ l.map Prod.fst := List.mem_map_of_mem he
        rwa [hl, heq] at hmem
      rw [hz, hnone rest rfl, hnone rest' hrest']
    · simpa [Fields.get?_cons, hz] using h z

/-- Entering values under different names one by one loses nothing. -/
theorem Fields.code_ofList_iff {m n : Fields Term} (hnodup : (m.map Prod.fst).Nodup)
    (hnames : n.map Prod.fst = m.map Prod.fst) :
    Fields.code (Fields.ofList m) = Fields.code (Fields.ofList n) ↔
      m.map (fun e => e.2.code) = n.map (fun e => e.2.code) := by
  have hget : ∀ {l : Fields Term}, (l.map Prod.fst).Nodup → ∀ x,
      Fields.get? ((Fields.ofList l).map fun e => (e.1, e.2.code)) x =
        Fields.get? (l.map fun e => (e.1, e.2.code)) x := by
    intro l hl x
    rw [Fields.get?_map, Fields.get?_ofList hl, Fields.get?_map]
  have hfst : ∀ l : Fields Term,
      (l.map fun e => (e.1, e.2.code)).map Prod.fst = l.map Prod.fst := fun l => by
    rw [List.map_map]
    rfl
  have hasc : ∀ l : Fields Term,
      Fields.Ascending ((Fields.ofList l).map fun e => (e.1, e.2.code)) := fun l =>
    List.pairwise_map.2 (Fields.ascending_ofList l)
  have hboth : m.map (fun e => (e.1, e.2.code)) = n.map (fun e => (e.1, e.2.code)) ↔
      m.map (fun e => e.2.code) = n.map (fun e => e.2.code) := by
    rw [← List.zip_map', ← List.zip_map', hnames]
    refine ⟨fun h => ?_, fun h => by rw [h]⟩
    have hlen : m.length = n.length := by simpa using (congrArg List.length hnames).symm
    have hsnd := congrArg (List.map Prod.snd) h
    rwa [List.map_snd_zip (by simp), List.map_snd_zip (by simp [hlen])] at hsnd
  have hnodup' : (n.map Prod.fst).Nodup := hnames ▸ hnodup
  rw [Fields.code_eq_iff, ← hboth]
  constructor
  · intro h
    refine Fields.eq_of_get? (by rw [hfst]; exact hnodup) (by rw [hfst, hfst, hnames]) fun x => ?_
    rw [← hget hnodup, ← hget hnodup', h]
  · intro h
    refine (hasc m).ext (hasc n) fun x => ?_
    rw [hget hnodup, hget hnodup', h]

/-! ### Values without variables -/

mutual

lemma Term.vars_ofUnit (t : Ty) : (Term.ofUnit t).vars = [] := by
  match t with
  | .list items => exact Term.vars_ofUnits items
  | .map fields kind => exact Term.vars_ofUnitFields fields
  | .prim _ | .lit _ | .layout _ _ _ | .closure _ _ | .union _ | .recur _ | .array _ _
  | .foreign _ _ => rfl
termination_by structural t

lemma Term.vars_ofUnits (ts : List Ty) : Term.varsOfAll (Term.ofUnits ts) = [] := by
  match ts with
  | [] => rfl
  | t :: rest =>
    rw [Term.ofUnits, Term.varsOfAll, Term.vars_ofUnit t, Term.vars_ofUnits rest]
    rfl
termination_by structural ts

lemma Term.vars_ofUnitFields (m : List (Name × Ty)) :
    Env.varsOfFields (fun _ => true) (Term.ofUnitFields m) = [] := by
  match m with
  | [] => rfl
  | (x, t) :: rest =>
    rw [Term.ofUnitFields, Env.varsOfFields, Term.vars_ofUnit t, Term.vars_ofUnitFields rest]
    rfl
termination_by structural m

end

lemma Term.code_retag_of_vars {t : Term} (h : t.vars = []) (σ : Tag → Tag) :
    (t.retag σ).code = t.code := by
  rw [← Term.code_retag_id t]
  refine Term.code_retag_congr fun v hv => ?_
  rw [h] at hv
  cases hv

lemma Env.solidFields_cons (e : Name × Term) (m : List (Name × Term)) :
    Env.solidFields (e :: m) = (e.1, e.2.solid) :: Env.solidFields m := rfl

lemma Env.solidFields_filter (keep : Name → Bool) (m : List (Name × Term)) :
    (Env.solidFields m).filter (fun e => keep e.1) =
      Env.solidFields (m.filter fun e => keep e.1) := by
  induction m with
  | nil => rfl
  | cons e rest ih => by_cases h : keep e.1 = true <;> simp [Env.solidFields_cons, h, ih]

lemma Env.visible_solid (env : Env) : env.solid.visible = Env.solidFields env.visible := by
  cases env with
  | plain m => rfl
  | consed s m => rfl
  | restricted m used => exact Env.solidFields_filter used.contains m

lemma Env.names_retagFields (σ : Tag → Tag) (m : List (Name × Term)) :
    (Env.retagFields σ m).map Prod.fst = m.map Prod.fst := by
  induction m with
  | nil => rfl
  | cons e rest ih => simp [Env.retagFields, ih]

lemma Env.names_solidFields (m : List (Name × Term)) :
    (Env.solidFields m).map Prod.fst = m.map Prod.fst := by
  induction m with
  | nil => rfl
  | cons e rest ih => simp [Env.solidFields_cons, ih]

lemma Fields.names_of_code {m n : Fields Term} (h : Fields.code m = Fields.code n) :
    m.map Prod.fst = n.map Prod.fst := by
  have hnames := congrArg (List.map Prod.fst) (Fields.code_eq_iff.1 h)
  rwa [List.map_map, List.map_map] at hnames

lemma Env.varsOfFields_solid (m : List (Name × Term)) :
    Env.varsOfFields (fun _ => true) (Env.solidFields m) =
      Term.varsOfAll (Term.solidAll (m.map Prod.snd)) := by
  induction m with
  | nil => rfl
  | cons e rest ih =>
    rw [Env.solidFields_cons, Env.varsOfFields, if_pos rfl, ih, List.map_cons]
    rfl

lemma Env.values_retagFields (σ : Tag → Tag) (m : List (Name × Term)) :
    (Env.retagFields σ (Env.solidFields m)).map Prod.snd =
      Term.retagAll σ (Term.solidAll (m.map Prod.snd)) := by
  induction m with
  | nil => rfl
  | cons e rest ih =>
    rw [Env.solidFields_cons, Env.retagFields, List.map_cons, ih, List.map_cons]
    rfl

/-! ### Renamings -/

/-- The renaming has met the occurrences `us`, and none before them. -/
structure Renaming.After (r : Renaming) (us : List Var) : Prop where
  renamed : ∀ t, r.renamed.lookup t = if t ∈ us.map Var.tag then some (Var.number us t) else none
  args : r.args = Var.firsts us
  params : r.params = (Var.firsts us).map fun v => ⟨Var.number us v.tag, v.ty⟩
  next : r.tags.next = (Var.firsts us).length

namespace Renaming.After

variable {r : Renaming} {us : List Var} {v : Var}

lemma start (envs : EnvTable) : Renaming.After { envs } [] := ⟨fun _ => rfl, rfl, rfl, rfl⟩

/-- A variable that was met before. -/
theorem again (h : r.After us) (hv : v.tag ∈ us.map Var.tag) : r.After (us ++ [v]) := by
  have hfirsts : Var.firsts (us ++ [v]) = Var.firsts us := by rw [Var.firsts_concat, if_pos hv]
  have hnumber : Var.number (us ++ [v]) = Var.number us := by
    funext t
    rw [Var.number, hfirsts, Var.number]
  refine ⟨fun t => ?_, by rw [hfirsts]; exact h.args, ?_, by rw [hfirsts]; exact h.next⟩
  · have hmem : t ∈ (us ++ [v]).map Var.tag ↔ t ∈ us.map Var.tag := by
      rw [List.map_append, List.mem_append, List.map_singleton, List.mem_singleton]
      exact ⟨fun h => h.elim id fun h => h ▸ hv, .inl⟩
    rw [h.renamed t, hnumber]
    simp only [hmem]
  · rw [hfirsts, hnumber]
    exact h.params

/-- A variable that is new becomes an argument. -/
theorem use (h : r.After us) (hv : v.tag ∉ us.map Var.tag) :
    Renaming.After
      { r with
        tags := ⟨r.tags.next + 1⟩
        renamed := (v.tag, r.tags.next) :: r.renamed
        args := r.args ++ [v]
        params := r.params ++ [⟨r.tags.next, v.ty⟩] } (us ++ [v]) := by
  have hfirsts : Var.firsts (us ++ [v]) = Var.firsts us ++ [v] := by
    rw [Var.firsts_concat, if_neg hv]
  have hnumber : Var.number (us ++ [v]) v.tag = r.tags.next := by
    rw [Var.number_new hv, h.next]
  refine ⟨fun t => ?_, ?_, ?_, ?_⟩
  · rw [List.lookup_cons, List.map_append, List.map_singleton]
    by_cases ht : t = v.tag
    · simp [ht, hnumber]
    · rw [beq_false_of_ne ht]
      have hmem : t ∈ us.map Var.tag ++ [v.tag] ↔ t ∈ us.map Var.tag := by simp [ht]
      simp only [hmem, h.renamed t]
      split
      · rename_i hold
        rw [Var.number_append hold]
      · rfl
  · rw [hfirsts, ← h.args]
  · have hold : (Var.firsts us).map (fun u => (⟨Var.number (us ++ [v]) u.tag, u.ty⟩ : Var)) =
        r.params := by
      rw [h.params]
      refine List.map_congr_left fun u hu => ?_
      rw [Var.number_append (Var.mem_firsts.1 (List.mem_map_of_mem hu))]
    rw [hfirsts, List.map_append, List.map_singleton, hnumber, hold]
  · rw [hfirsts, List.length_append, List.length_singleton, ← h.next]

/-- The parameters have the types of the arguments. -/
theorem params_ty (h : r.After us) : r.params.map Var.ty = r.args.map Var.ty := by
  rw [h.params, h.args, List.map_map]
  rfl

/-- The parameters are numbered from zero on. -/
theorem params_tag (h : r.After us) : r.params.map Var.tag = List.range r.tags.next := by
  rw [h.params, h.next, List.map_map]
  refine List.ext_getElem (by simp) fun n hn _ => ?_
  have hlt : n < ((Var.firsts us).map Var.tag).length := by simpa using hn
  have hidx := (Var.nodup_firsts us).idxOf_getElem n hlt
  simpa [Var.number] using hidx

end Renaming.After

namespace Rename

variable {α β : Type}

/-- The action meets the occurrences `vs`, and its result has the property for the numbers of all
variables. -/
def Numbers (act : Rename α) (vs : List Var) (Q : (Tag → Tag) → α → Prop) : Prop :=
  ∀ r a s us, act.run r = some (a, s) → r.After us →
    s.After (us ++ vs) ∧ ∀ ws, Q (Var.number (us ++ vs ++ ws)) a

lemma numbers_pure {Q : (Tag → Tag) → α → Prop} {a : α} (h : ∀ σ, Q σ a) :
    Numbers (pure a) [] Q := by
  intro r b s us hrun hr
  obtain ⟨rfl, rfl⟩ := run_pure.1 hrun
  rw [List.append_nil]
  exact ⟨hr, fun ws => h _⟩

lemma Numbers.bind {m : Rename α} {f : α → Rename β} {vs ws : List Var}
    {P : (Tag → Tag) → α → Prop} {Q : (Tag → Tag) → β → Prop} (hm : Numbers m vs P)
    (hf : ∀ a, Numbers (f a) ws fun σ b => P σ a → Q σ b) : Numbers (m >>= f) (vs ++ ws) Q := by
  intro r b s us hrun hr
  obtain ⟨a, t, h₁, h₂⟩ := run_bind.1 hrun
  obtain ⟨ht, hP⟩ := hm r a t us h₁ hr
  obtain ⟨hs, hQ⟩ := hf a t b s (us ++ vs) h₂ ht
  rw [← List.append_assoc]
  refine ⟨hs, fun xs => hQ xs ?_⟩
  rw [List.append_assoc (us ++ vs)]
  exact hP (ws ++ xs)

lemma Numbers.map {m : Rename α} {vs : List Var} {P : (Tag → Tag) → α → Prop} {f : α → β}
    {Q : (Tag → Tag) → β → Prop} (hm : Numbers m vs P) (hQ : ∀ σ a, P σ a → Q σ (f a)) :
    Numbers (do return f (← m)) vs Q := by
  have h := hm.bind (f := fun a => pure (f a)) (Q := Q) fun a => numbers_pure fun σ => hQ σ a
  rwa [List.append_nil] at h

lemma numbers_useVar (v : Var) :
    Numbers (useVar v) [v] fun σ u => u = ⟨σ v.tag, v.ty⟩ := by
  intro r u s us hrun hr
  have hlookup := hr.renamed v.tag
  have hmem : v.tag ∈ (us ++ [v]).map Var.tag := by simp
  rcases run_useVar.1 hrun with ⟨tag, hold, rfl, rfl⟩ | ⟨hnew, -, rfl, rfl⟩
  · rw [hold] at hlookup
    split at hlookup
    · rename_i hv
      cases hlookup
      refine ⟨hr.again hv, fun ws => ?_⟩
      dsimp only
      rw [List.append_assoc, Var.number_append hv]
    · cases hlookup
  · rw [hnew] at hlookup
    split at hlookup
    · cases hlookup
    · rename_i hv
      refine ⟨hr.use hv, fun ws => ?_⟩
      dsimp only
      rw [Var.number_append hmem, Var.number_new hv, hr.next]

/-- Entering a map keeps its code. -/
theorem Numbers.cons {act : Rename α} {vs : List Var} {P : (Tag → Tag) → α → Prop}
    (h : Numbers act vs P) {f : α → Fields Term} {c : (Tag → Tag) → Code}
    (hf : ∀ σ a, P σ a → Fields.code (f a) = c σ) :
    Numbers (do consFields (f (← act))) vs fun σ e => e.code = c σ := by
  have hcons : ∀ a, Numbers (consFields (f a)) [] fun σ e => P σ a → e.code = c σ := by
    intro a r e s us hrun hr
    obtain ⟨rfl, rfl⟩ := run_consFields.1 hrun
    obtain ⟨h1, h2, h3, h4⟩ := hr
    rw [List.append_nil]
    exact ⟨⟨h1, h2, h3, h4⟩, fun _ hP => (EnvTable.code_enter _ (f a)).trans (hf _ a hP)⟩
  have hbind := h.bind hcons
  rwa [List.append_nil] at hbind

/-- The bindings of a map, one after the other. -/
theorem numbers_inOrder {m : List (Name × Term)}
    (h : ∀ e ∈ m, Numbers (term e.2) e.2.solid.vars fun σ t => t.code = (e.2.solid.retag σ).code) :
    Numbers (inOrder (fields m)) (Env.varsOfFields (fun _ => true) (Env.solidFields m)) fun σ n =>
      Fields.code n = Fields.code (Env.retagFields σ (Env.solidFields m)) := by
  induction m with
  | nil => exact numbers_pure fun _ => rfl
  | cons e rest ih =>
    obtain ⟨x, t⟩ := e
    obtain ⟨ht, hrest⟩ := List.forall_mem_cons.1 h
    rw [fields, inOrder, List.mapM_cons]
    have hfirst := ht.map (f := fun t => (x, t)) (Q := fun σ e => e.1 = x ∧
      e.2.code = (t.solid.retag σ).code) fun σ a ha => ⟨rfl, ha⟩
    refine hfirst.bind fun e => (ih hrest).map fun σ n hn he => ?_
    rw [Fields.code_eq_iff] at hn ⊢
    simp only [Env.solidFields, Env.retagFields, List.map_cons, he.1, he.2, hn]

lemma pick_fields (used : Captures) (m : List (Name × Term)) :
    used.pick (fields m) = fields (used.pick m) := by
  have hget : ∀ x, Fields.get? (fields m) x = (Fields.get? m x).map term := by
    intro x
    induction m with
    | nil => rfl
    | cons e rest ih =>
      rw [fields, Fields.get?_cons, Fields.get?_cons, ih]
      split <;> rfl
  induction used with
  | nil => rfl
  | cons x rest ih =>
    unfold Captures.pick at ih ⊢
    rw [List.filterMap_cons, List.filterMap_cons, hget, ih]
    cases Fields.get? m x <;> rfl

mutual

lemma numbers_term (t : Term) (h : t.Formed) :
    Numbers (term t) t.solid.vars fun σ t' => t'.code = (t.solid.retag σ).code := by
  match t with
  | .type _ | .lit _ => exact numbers_pure fun _ => rfl
  | .var v =>
    rw [term, Term.solid]
    split
    · rw [Term.vars_ofUnit]
      exact numbers_pure fun σ => (Term.code_retag_of_vars (Term.vars_ofUnit _) σ).symm
    · exact (numbers_useVar v).map fun σ u hu => by rw [hu]; rfl
  | .tuple items =>
    refine (numbers_terms items h).map fun σ ts hts => ?_
    simp only [Term.solid, Term.retag, Term.code, hts]
  | .map e kind =>
    refine (numbers_env e h.1).map fun σ e' he => ?_
    simp only [Term.solid, Term.retag, Term.code, he]
  | .box inner ty =>
    refine (numbers_term inner h.1).map fun σ t' ht => ?_
    simp only [Term.solid, Term.retag, Term.code, ht]
  | .op o args ty =>
    obtain ⟨rfl, hargs, -⟩ := h
    refine (numbers_terms args hargs).map fun σ ts hts => ?_
    simp only [Term.solid, Term.retag, Term.code, hts]
termination_by structural t

lemma numbers_terms (ts : List Term) (h : Term.AllFormed ts) :
    Numbers (terms ts) (Term.varsOfAll (Term.solidAll ts)) fun σ ts' =>
      Term.codeAll ts' = Term.codeAll (Term.retagAll σ (Term.solidAll ts)) := by
  match ts with
  | [] => exact numbers_pure fun _ => rfl
  | t :: rest =>
    refine (numbers_term t h.1).bind fun t' => (numbers_terms rest h.2).map fun σ ts' hts ht => ?_
    simp only [Term.solidAll, Term.retagAll, Term.codeAll, ht, hts]
termination_by structural ts

lemma numbers_env (e : Env) (h : e.Formed) :
    Numbers (env e) e.solid.vars fun σ e' => e'.code = (e.solid.retag σ).code := by
  simp only [Env.vars_eq_visible, Env.code_retag_visible, Env.visible_solid]
  match e with
  | .plain m => exact (numbers_inOrder (numbers_fields m h.2)).cons fun _ _ hn => hn
  | .restricted m used =>
    have hpick : used.pick m = m.filter fun e => used.contains e.1 :=
      Captures.pick_eq_filter h.2.2 h.1
    have hvisible : ∀ e ∈ (m.filter fun e => used.contains e.1),
        Numbers (term e.2) e.2.solid.vars fun σ t => t.code = (e.2.solid.retag σ).code :=
      fun e he => numbers_fields m h.2.1 e (List.mem_filter.1 he).1
    rw [env, pick_fields, hpick]
    refine (numbers_inOrder hvisible).cons fun σ n hn => ?_
    have hnames : n.map Prod.fst = (m.filter fun e => used.contains e.1).map Prod.fst := by
      rw [Fields.names_of_code hn, Env.names_retagFields, Env.names_solidFields]
    have hasc : Fields.Ascending n := ascending_of_names hnames (List.Pairwise.filter _ h.1)
    rw [hasc.ofList_eq]
    exact hn
  | .consed _ m => exact (numbers_inOrder (numbers_fields m h.2)).cons fun _ _ hn => hn
termination_by structural e

lemma numbers_fields (m : List (Name × Term)) (h : Env.FieldsFormed m) :
    ∀ e ∈ m, Numbers (term e.2) e.2.solid.vars fun σ t => t.code = (e.2.solid.retag σ).code := by
  match m with
  | [] => exact fun e he => absurd he List.not_mem_nil
  | (x, t) :: rest =>
    exact List.forall_mem_cons.2 ⟨numbers_term t h.1, numbers_fields rest h.2⟩
termination_by structural m

end

end Rename

end Residual
