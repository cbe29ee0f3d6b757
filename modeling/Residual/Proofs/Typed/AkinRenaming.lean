import Residual.Proofs.Typed.Akin
import Residual.Proofs.Typed.ContentTwins
import Residual.Proofs.Typed.Packing
import Residual.Proofs.Typed.RenameTwins
import Residual.Proofs.Typed.Symbols

/-!
Akin values are renamed alike.

A renaming that starts without arguments numbers the variables with run-time data by first
occurrence. Between akin values the first occurrences are in the same places as long as the map of
tags keeps the variables apart. So the results have one content, whatever tables the environments in
them are entered in, and the arguments are akin.
-/

namespace Residual

variable {held : MapKind → Prop} {σ : Tag → Tag}

/-! ### Other tags -/

lemma Env.ascending_retagFields {m : List (Name × Term)} (h : Fields.Ascending m) :
    Fields.Ascending (Env.retagFields σ m) := by
  rw [Env.retagFields_eq]
  exact List.pairwise_map.2 h

mutual

lemma Term.formed_retag (t : Term) (h : t.Formed) : (t.retag σ).Formed := by
  match t with
  | .type _ | .lit _ | .var ⟨_, _⟩ => exact h
  | .tuple items => exact Term.allFormed_retag items h
  | .map env kind => exact ⟨Env.formed_retag env h.1, h.2⟩
  | .box inner ty => exact ⟨Term.formed_retag inner h.1, h.2⟩
  | .op o args ty => exact ⟨h.1, Term.allFormed_retag args h.2.1, h.2.2⟩
termination_by structural t

lemma Term.allFormed_retag (ts : List Term) (h : Term.AllFormed ts) :
    Term.AllFormed (Term.retagAll σ ts) := by
  match ts with
  | [] => trivial
  | t :: rest => exact ⟨Term.formed_retag t h.1, Term.allFormed_retag rest h.2⟩
termination_by structural ts

lemma Env.formed_retag (env : Env) (h : env.Formed) : (env.retag σ).Formed := by
  match env with
  | .plain m => exact ⟨Env.ascending_retagFields h.1, Env.fieldsFormed_retag m h.2⟩
  | .restricted m used =>
    exact ⟨Env.ascending_retagFields h.1, Env.fieldsFormed_retag m h.2.1, h.2.2⟩
  | .consed _ m => exact ⟨Env.ascending_retagFields h.1, Env.fieldsFormed_retag m h.2⟩
termination_by structural env

lemma Env.fieldsFormed_retag (m : List (Name × Term)) (h : Env.FieldsFormed m) :
    Env.FieldsFormed (Env.retagFields σ m) := by
  match m with
  | [] => trivial
  | (x, t) :: rest => exact ⟨Term.formed_retag t h.1, Env.fieldsFormed_retag rest h.2⟩
termination_by structural m

end

mutual

lemma Term.kinds_retag (t : Term) : (t.retag σ).kinds = t.kinds := by
  match t with
  | .type _ | .lit _ | .var ⟨_, _⟩ | .letIn _ _ _ _ | .state _ _ _ | .call _ _ _ _ => rfl
  | .tuple items => exact Term.kindsOfAll_retag items
  | .map env kind => rw [Term.retag, Term.kinds, Term.kinds, Env.kinds_retag env]
  | .box inner ty => rw [Term.retag, Term.kinds, Term.kinds, Term.kinds_retag inner]
  | .op o args ty => rw [Term.retag, Term.kinds, Term.kinds, Term.kindsOfAll_retag args]
termination_by structural t

lemma Term.kindsOfAll_retag (ts : List Term) :
    Term.kindsOfAll (Term.retagAll σ ts) = Term.kindsOfAll ts := by
  match ts with
  | [] => rfl
  | t :: rest =>
    rw [Term.retagAll, Term.kindsOfAll, Term.kindsOfAll, Term.kinds_retag t,
      Term.kindsOfAll_retag rest]
termination_by structural ts

lemma Env.kinds_retag (env : Env) : (env.retag σ).kinds = env.kinds := by
  match env with
  | .plain m => exact Env.kindsOfFields_retag _ m
  | .restricted m used => exact Env.kindsOfFields_retag _ m
  | .consed _ m => exact Env.kindsOfFields_retag _ m
termination_by structural env

lemma Env.kindsOfFields_retag (keep : Name → Bool) (m : List (Name × Term)) :
    Env.kindsOfFields keep (Env.retagFields σ m) = Env.kindsOfFields keep m := by
  match m with
  | [] => rfl
  | (x, t) :: rest =>
    rw [Env.retagFields, Env.kindsOfFields, Env.kindsOfFields, Term.kinds_retag t,
      Env.kindsOfFields_retag keep rest]
termination_by structural m

end

mutual

lemma Term.solid_retag (t : Term) : (t.retag σ).solid = t.solid.retag σ := by
  match t with
  | .type _ | .lit _ | .letIn _ _ _ _ | .state _ _ _ | .call _ _ _ _ => rfl
  | .var v =>
    rw [Term.retag, Term.solid, Term.solid]
    split
    · rw [Term.retag_ofUnit]
    · rfl
  | .tuple items => exact congrArg Term.tuple (Term.solidAll_retag items)
  | .map env kind => exact congrArg (Term.map · kind) (Env.solid_retag env)
  | .box inner ty => exact congrArg (Term.box · ty) (Term.solid_retag inner)
  | .op o args ty => exact congrArg (Term.op o · ty) (Term.solidAll_retag args)
termination_by structural t

lemma Term.solidAll_retag (ts : List Term) :
    Term.solidAll (Term.retagAll σ ts) = Term.retagAll σ (Term.solidAll ts) := by
  match ts with
  | [] => rfl
  | t :: rest => exact congrArg₂ List.cons (Term.solid_retag t) (Term.solidAll_retag rest)
termination_by structural ts

lemma Env.solid_retag (env : Env) : (env.retag σ).solid = env.solid.retag σ := by
  match env with
  | .plain m => exact congrArg Env.plain (Env.solidFields_retag m)
  | .restricted m used => exact congrArg (Env.restricted · used) (Env.solidFields_retag m)
  | .consed _ m => exact congrArg Env.plain (Env.solidFields_retag m)
termination_by structural env

lemma Env.solidFields_retag (m : List (Name × Term)) :
    Env.solidFields (Env.retagFields σ m) = Env.retagFields σ (Env.solidFields m) := by
  match m with
  | [] => rfl
  | (x, t) :: rest =>
    exact congrArg₂ (fun t m => (x, t) :: m) (Term.solid_retag t) (Env.solidFields_retag rest)
termination_by structural m

end

mutual

lemma Term.solid_canon (t : Term) : t.canon.solid = t.solid.canon := by
  match t with
  | .type _ | .lit _ | .letIn _ _ _ _ | .state _ _ _ | .call _ _ _ _ => rfl
  | .var ⟨tag, ty⟩ =>
    rw [Term.canon, Var.canon, Term.solid, Term.solid]
    dsimp only
    rw [Ty.isUnit_canon]
    split
    · rw [Term.ofUnit_canon]
    · rfl
  | .tuple items => exact congrArg Term.tuple (Term.solidAll_canon items)
  | .map env kind => exact congrArg (Term.map · kind) (Env.solid_canon env)
  | .box inner ty => exact congrArg (Term.box · ty.canon) (Term.solid_canon inner)
  | .op o args ty => exact congrArg (Term.op o · ty.canon) (Term.solidAll_canon args)
termination_by structural t

lemma Term.solidAll_canon (ts : List Term) :
    Term.solidAll (Term.canonAll ts) = Term.canonAll (Term.solidAll ts) := by
  match ts with
  | [] => rfl
  | t :: rest => exact congrArg₂ List.cons (Term.solid_canon t) (Term.solidAll_canon rest)
termination_by structural ts

lemma Env.solid_canon (env : Env) : env.canon.solid = env.solid.canon := by
  match env with
  | .plain m => exact congrArg Env.plain (Env.solidFields_canon _ m)
  | .restricted m used => exact congrArg Env.plain (Env.solidFields_canon _ m)
  | .consed _ m => exact congrArg Env.plain (Env.solidFields_canon _ m)
termination_by structural env

lemma Env.solidFields_canon (keep : Name → Bool) (m : List (Name × Term)) :
    Env.solidFields (Env.canonFields keep m) = Env.canonFields keep (Env.solidFields m) := by
  match m with
  | [] => rfl
  | (x, t) :: rest =>
    rw [Env.canonFields, Env.solidFields, Env.canonFields]
    split
    · exact congrArg₂ (fun t m => (x, t) :: m) (Term.solid_canon t)
        (Env.solidFields_canon keep rest)
    · exact Env.solidFields_canon keep rest
termination_by structural m

end

/-! ### Variables with run-time data -/

/-- The variables with run-time data in some bindings, one for each occurrence. -/
abbrev Fields.data (m : Fields Term) : List Var :=
  Env.varsOfFields (fun _ => true) (Env.solidFields m)

variable {m n : Fields Term}

/-- Twins but for the tags of their variables are so without what has no run-time data. -/
theorem Fields.code_solid (h : Fields.canon m = Fields.canon (Env.retagFields σ n)) :
    Fields.code (Env.solidFields m) = Fields.code (Env.retagFields σ (Env.solidFields n)) := by
  have hall : ∀ m : Fields Term, Fields.canon m = Env.canonFields (fun _ => true) m := fun m => by
    rw [Env.canonFields_eq, List.filter_eq_self.2 fun _ _ => rfl]
  have hsolid := congrArg Env.solidFields h
  rw [hall, hall, Env.solidFields_canon, Env.solidFields_canon, Env.solidFields_retag, ← hall,
    ← hall] at hsolid
  rw [← Fields.code_canon, hsolid, Fields.code_canon]

/-- They have one shape, and variables that belong together in the same places. -/
theorem Fields.marks_solid (h : Fields.canon m = Fields.canon (Env.retagFields σ n)) :
    Env.shapeOfFields (fun _ => true) (Env.solidFields n) =
        Env.shapeOfFields (fun _ => true) (Env.solidFields m) ∧
      (Fields.data n).map (Var.mark σ) = (Fields.data m).map (Var.mark id) := by
  have hid : Fields.code (Env.retagFields id (Env.solidFields m)) =
      Fields.code (Env.solidFields m) := Env.codeFields_retag_id _ _
  exact (Env.codeFields_retag_iff _ _ _ σ id).1 ((Fields.code_solid h).symm.trans hid.symm)

namespace Tagging

variable {known : Set Tag}

lemma mem_of : σ ∈ (Tagging.of σ known).maps := fun _ _ => rfl

/-- Where all maps of the tagging take a tag to one, the tag is known. -/
lemma known_of {n a : Tag} (h : ∀ τ ∈ (Tagging.of σ known).maps, τ n = a) : n ∈ known := by
  by_contra hn
  have hupdate : Function.update σ n (σ n + 1) ∈ (Tagging.of σ known).maps := fun k hk => by
    rw [Function.update_of_ne (by rintro rfl; exact hn hk)]
  have hσ := h σ mem_of
  have hτ := h _ hupdate
  rw [Function.update_self] at hτ
  exact Nat.succ_ne_self _ (hτ.trans hσ.symm)

end Tagging

/-- The variables of a value that is akin to another one are known. -/
theorem Fields.Akin.known {known : Set Tag} (h : Fields.Akin (.of σ known) held m n) :
    ∀ w ∈ Fields.data n, w.tag ∈ known := by
  intro w hw
  refine Tagging.known_of (σ := σ) (a := σ w.tag) fun τ hτ => ?_
  have hsame := fun τ hτ => (Fields.marks_solid (Fields.akin_iff.1 h τ hτ).same).2
  have hmarks := (hsame τ hτ).trans (hsame σ Tagging.mem_of).symm
  exact (Prod.mk.inj (List.map_inj_left.1 hmarks w hw)).1

/-- Akin terms have one code but for the tags of their variables. -/
theorem Term.Akin.codeAll {T : Tagging} {as bs : List Term}
    (h : List.Forall₂ (Term.Akin T held) as bs) (hσ : σ ∈ T.maps) :
    Term.codeAll as = Term.codeAll (Term.retagAll σ bs) := by
  rw [Term.codeAll_eq_iff, Term.retagAll_eq, List.map_map]
  induction h with
  | nil => rfl
  | cons hab _ ih =>
    rw [List.map_cons, List.map_cons, ih, ← Term.code_canon, (hab σ hσ).same, Term.code_canon]
    rfl

lemma Term.Akin.known_all {known : Set Tag} {as bs : List Term}
    (h : List.Forall₂ (Term.Akin (.of σ known) held) as bs) :
    ∀ w ∈ Term.varsOfAll bs, w.tag ∈ known := by
  intro w hw
  refine Tagging.known_of (σ := σ) (a := σ w.tag) fun τ hτ => ?_
  have hcode := (Akin.codeAll h hτ).symm.trans (Akin.codeAll h Tagging.mem_of)
  have hmarks := ((Term.codeAll_retag_iff bs bs τ σ).1 hcode).2
  exact (Prod.mk.inj (List.map_inj_left.1 hmarks w hw)).1

/-- Where the kinds of maps are told apart by their codes, bindings with one code but for the tags
of their variables are akin. -/
theorem Fields.akin_of_code {T : Tagging} (hheld : MapKind.Apart held) (hm : Fields.Formed m)
    (hn : Fields.Formed n) (hk : ∀ k ∈ Fields.kinds m, held k) (hl : ∀ k ∈ Fields.kinds n, held k)
    (h : ∀ σ ∈ T.maps, Fields.code m = Fields.code (Env.retagFields σ n)) :
    Fields.Akin T held m n := by
  refine Fields.akin_iff.2 fun σ hσ => Fields.twin_of_code hheld hm
    ⟨Env.ascending_retagFields hn.1, Env.fieldsFormed_retag n hn.2⟩ hk (fun k hmem => ?_) (h σ hσ)
  have hkinds := Env.kindsOfFields_retag (σ := σ) (fun _ => true) n
  rw [Env.kindsOfFields_eq, Env.kindsOfFields_eq, List.filter_eq_self.2 fun _ _ => rfl,
    List.filter_eq_self.2 fun _ _ => rfl] at hkinds
  rw [hkinds] at hmem
  exact hl k hmem

/-! ### Places in tables -/

namespace EnvTable

/-- The first entry with the content of `m` has the symbol. -/
def Finds (t : EnvTable) (m : Fields Term) (symbol : Nat) : Prop :=
  @Interner.symbol? _ ⟨Fields.sameContent⟩ t m = some symbol

section Content

local instance : BEq (Fields Term) := ⟨Fields.sameContent⟩

local instance : EquivBEq (Fields Term) where
  rfl := Fields.sameContent_iff.2 rfl
  symm h := Fields.sameContent_iff.2 (Fields.sameContent_iff.1 h).symm
  trans h k := Fields.sameContent_iff.2
    ((Fields.sameContent_iff.1 h).trans (Fields.sameContent_iff.1 k))

variable {t u : EnvTable} {i j : Nat}

lemma finds_enter (t : EnvTable) (m : Fields Term) :
    (t.enter m).2.Finds m (t.enter m).1.symbol := Interner.symbol?_intern t m

lemma Finds.mono (h : t.Finds m i) (htu : t.Extends u) : u.Finds m i :=
  Interner.Extends.symbol? htu h

lemma Finds.eq_iff (h : t.Finds m i) (k : t.Finds n j) :
    i = j ↔ Fields.code m = Fields.code n := by
  rw [← Fields.sameContent_iff]
  constructor
  · rintro rfl
    obtain ⟨_, hx, -⟩ := List.findIdx?_eq_some_iff_getElem.1 h
    obtain ⟨_, hy, -⟩ := List.findIdx?_eq_some_iff_getElem.1 k
    exact BEq.trans (BEq.symm hx) hy
  · intro hmn
    have hsymbol : Interner.symbol? t m = Interner.symbol? t n := Interner.symbol?_congr t hmn
    exact Option.some.inj (h.symm.trans (hsymbol.trans k))

end Content

end EnvTable

/-! ### Renaming from the start -/

/-- A table with formed environments, in which the kinds of maps have the property. -/
structure EnvTable.Holds (held : MapKind → Prop) (t : EnvTable) : Prop where
  formed : t.Formed
  twin : EnvTable.Twin held t t

lemma EnvTable.Holds.enter {t : EnvTable} (h : t.Holds held) (hm : Fields.Formed m)
    (hk : ∀ k ∈ Fields.kinds m, held k) :
    (t.enter m).2.Holds held ∧ Fields.Formed (t.enter m).1.value ∧
      ∀ k ∈ Fields.kinds (t.enter m).1.value, held k := by
  obtain ⟨-, hvalue, htwin⟩ := h.twin.enter (.refl hk)
  exact ⟨⟨(h.formed.enter hm).1, htwin⟩, (h.formed.enter hm).2, hvalue.held⟩

namespace Rename

/-- What comes of renaming the bindings `m` one after the other, from the table `t` on: the
bindings `raw`, and what the renaming `r` knows. -/
structure Started (held : MapKind → Prop) (m : Fields Term) (t : EnvTable) (raw : Fields Term)
    (r : Renaming) : Prop where
  after : r.After (Fields.data m)
  code : Fields.code raw =
    Fields.code (Env.retagFields (Var.number (Fields.data m)) (Env.solidFields m))
  names : raw.map Prod.fst = m.map Prod.fst
  formed : ∀ e ∈ raw, e.2.Formed
  kinds : ∀ k ∈ Fields.kinds raw, held k
  args : ∀ v ∈ r.args, v.ty.Formed ∧ ∀ k ∈ v.ty.kinds, held k
  grows : t.Extends r.envs
  envs : r.envs.Holds held
  room : r.tags.next ≤ Tags.limit

variable {t t' : EnvTable} {raw raw' : Fields Term} {r r' : Renaming}

lemma started_inOrder (hm : ∀ e ∈ m, e.2.Formed) (hk : ∀ k ∈ Fields.kinds m, held k)
    (ht : t.Holds held) (hrun : (inOrder (fields m)).run { envs := t } = some (raw, r)) :
    Started held m t raw r := by
  have hfields : Env.FieldsFormed m := Env.fieldsFormed_iff.2 hm
  obtain ⟨hafter, hcode⟩ := numbers_inOrder (fun e he => numbers_term e.2 (hm e he)) _ _ _ [] hrun
    (Renaming.After.start t)
  obtain ⟨hformed, hnames, hraw⟩ := keeps_inOrder (keeps_fields m hfields) _ _ _ hrun
    ⟨ht.formed, fun _ h => absurd h List.not_mem_nil, fun _ h => absurd h List.not_mem_nil,
      fun _ h => absurd h List.not_mem_nil⟩
  have hgrows := grows_inOrder (grows_fields m) _ _ _ hrun
  -- Run beside itself, the renaming shows which kinds there are.
  have hself : Renaming.Twin held { envs := t } { envs := t } := ⟨ht.twin, rfl, rfl, .nil, .nil⟩
  have htwin := paired_inOrder (.refl hk)
    (fun d hd e he hde s s' => paired_fields m hfields d hd e.2 (hm e he) hde s s') hself
  rw [hrun] at htwin
  cases htwin with
  | some h =>
    obtain ⟨hraw', htwin⟩ := h
    have hcode := hcode []
    rw [List.append_nil] at hcode
    refine ⟨hafter, hcode, hnames.trans (fields_names m), hraw, hraw'.held, fun v hv => ?_,
      hgrows.envs, ⟨hformed.envs, htwin.envs⟩, hgrows.room⟩
    obtain ⟨tag, ty⟩ := v
    exact ⟨hformed.args _ hv, fun k hk =>
      (Twin.forall₂_iff.1 htwin.args).2 k (List.mem_flatMap.2 ⟨_, hv, hk⟩)⟩

namespace Started

variable {known : Set Tag}

/-- The variables of the result are numbered. -/
theorem tag_lt (h : Started held m t raw r) :
    ∀ v ∈ Env.varsOfFields (fun _ => true) raw, v.tag < r.tags.next := by
  intro v hv
  have hid : Fields.code (Env.retagFields id raw) = Fields.code raw := Env.codeFields_retag_id _ _
  have hmarks := ((Env.codeFields_retag_iff _ _ _ id _).1 (hid.trans h.code)).2
  obtain ⟨w, hw, htag, -⟩ := Var.exists_mark hmarks.symm hv
  rw [← htag, h.after.next, ← List.length_map (f := Var.tag)]
  exact List.idxOf_lt_length_of_mem (Var.mem_firsts.2 (List.mem_map_of_mem hw))

/-- Renamed akin values have one content, and their variables are the arguments. -/
theorem akin (hheld : MapKind.Apart held) (h : Started held m t raw r)
    (h' : Started held n t' raw' r') (hmn : Fields.Akin (.of σ known) held m n)
    (hσ : Var.InjOn σ (Fields.data n)) :
    Fields.code raw = Fields.code raw' ∧ r.tags = r'.tags ∧
      List.Forall₂ (Var.Akin (.of σ known) held) r.args r'.args := by
  obtain ⟨hshape, hmarks⟩ :=
    Fields.marks_solid (Fields.akin_iff.1 hmn σ Tagging.mem_of).same
  have hnumbers := Var.exists_retag_iff.2 ⟨σ, hσ, hmarks⟩
  have hfirsts := Var.firsts_mark hσ hmarks
  rw [← h.after.args, ← h'.after.args] at hfirsts
  have hlength : r.args.length = r'.args.length := by simpa using
    (congrArg List.length hfirsts).symm
  refine ⟨?_, congrArg Tags.mk ?_, ?_⟩
  · rw [h.code, h'.code]
    exact (Env.codeFields_retag_iff _ _ _ _ _).2 ⟨hshape.symm, hnumbers.symm⟩
  · rw [h.after.next, h'.after.next, ← h.after.args, ← h'.after.args, hlength]
  · refine List.forall₂_iff_get.2 ⟨hlength, fun i hi hi' => ?_⟩
    have hv := List.getElem_mem hi
    have hw := List.getElem_mem hi'
    have hmark : (r'.args[i]).mark σ = (r.args[i]).mark id := by
      have hget := congrArg (·[i]?) hfirsts
      simpa [hi, hi'] using hget
    obtain ⟨htag, hty⟩ := Prod.mk.inj hmark
    have hknown : (r'.args[i]).tag ∈ known := by
      refine hmn.known _ (Var.firsts_subset _ ?_)
      rw [← h'.after.args]
      exact hw
    refine ⟨fun τ hτ => ?_, ?_⟩
    · exact htag.symm.trans (hτ _ hknown).symm
    · exact Ty.twin_of_code hheld (h.args _ hv).1 (h'.args _ hw).1 (h.args _ hv).2
        (h'.args _ hw).2 hty.symm

end Started

end Rename

end Residual
