import Mathlib.Data.Set.Card
import Residual.Proofs.Typed.Entered
import Residual.Proofs.Typed.TypeCodes

/-!
The forms of an environment agree.

An environment is plain, or a larger one of which some names were captured, or entered in a table.
What it binds each name to is its canonical map, and all that is done with an environment depends on
this map alone: looking a name up, going through the bindings, binding one more name, entering it,
comparing it, and taking the type of a map value that holds it.
-/

namespace Residual

/-- What a name is bound to, if the environment binds it: the canonical map. -/
def Env.binds : Env → Name → Option Term
  | .plain m, x => Fields.get? m x
  | .restricted m used, x => if x ∈ used then Fields.get? m x else none
  | .consed _ m, x => Fields.get? m x

/-- The same names are bound, to equal values. -/
def SameBindings (f g : Name → Option Term) : Prop := ∀ x, (f x == g x) = true

/-! ### One environment -/

lemma Fields.Ascending.nodup {α : Type} {m : Fields α} (h : Ascending m) :
    (m.map Prod.fst).Nodup :=
  List.pairwise_map.2 (h.imp fun hlt heq => by
    rw [heq] at hlt
    exact Nat.lt_irrefl _ hlt)

namespace Env

variable {env : Env}

lemma visible_get? (env : Env) (x : Name) : Fields.get? env.visible x = env.binds x := by
  cases env with
  | plain m => rfl
  | consed s m => rfl
  | restricted m used =>
    rw [visible, Captures.get?_filter, binds]
    simp only [List.contains_iff_mem]

/-- The search by halving finds the names that were captured. -/
lemma get?_eq_binds (h : env.Ascending) (x : Name) : env.get? x = env.binds x := by
  rw [h.get?_eq, visible_get?]

lemma mem_bindings_iff (h : env.Ascending) (x : Name) (t : Term) :
    (x, t) ∈ env.bindings ↔ env.binds x = some t := by
  rw [h.bindings_eq, ← visible_get?]
  exact ⟨fun hmem => h.visible.get?_of_mem hmem, Fields.mem_of_get?⟩

lemma size_eq_ncard (h : env.Ascending) : env.size = {x | (env.binds x).isSome}.ncard := by
  have hnames : {x | (env.binds x).isSome} = {x | x ∈ env.bindings.map Prod.fst} := by
    ext x
    rw [Set.mem_ofPred_eq, Set.mem_ofPred_eq, List.mem_map, Option.isSome_iff_exists]
    constructor
    · rintro ⟨t, ht⟩
      exact ⟨(x, t), (mem_bindings_iff h x t).2 ht, rfl⟩
    · rintro ⟨⟨_, t⟩, ht, rfl⟩
      exact ⟨t, (mem_bindings_iff h _ t).1 ht⟩
  have hnodup : (env.bindings.map Prod.fst).Nodup := h.bindings_eq ▸ h.visible.nodup
  rw [hnames, ← List.coe_toFinset, Set.ncard_coe_finset, List.toFinset_card_of_nodup hnodup,
    List.length_map, size]

lemma binds_bind (env : Env) (x : Name) (t : Term) :
    (env.bind x t).binds = Function.update env.binds x (some t) := by
  funext y
  rw [Function.update_apply, ← visible_get?, visible_bind, Fields.get?_insert, visible_get?]

/-- Environments that bind the same are made of the same visible bindings. -/
lemma visible_eq_iff {a b : Env} (ha : a.Ascending) (hb : b.Ascending) :
    a.visible = b.visible ↔ a.binds = b.binds := by
  constructor
  · intro h
    funext x
    rw [← visible_get?, h, visible_get?]
  · intro h
    refine ha.visible.ext hb.visible fun x => ?_
    rw [visible_get?, visible_get?, h]

/-- Names may be bound in any order. -/
lemma foldl_bind_perm {l l' : List (Name × Term)} (hperm : l.Perm l')
    (hnodup : (l.map Prod.fst).Nodup) {env : Env} (h : env.Ascending) :
    l.foldl (fun env e => env.bind e.1 e.2) env = l'.foldl (fun env e => env.bind e.1 e.2) env := by
  induction hperm generalizing env with
  | nil => rfl
  | cons e _ ih => exact ih (List.nodup_cons.1 hnodup).2 (h.bind e.1 e.2)
  | swap e d l =>
    have hne : e.1 ≠ d.1 := fun heq => by simp [heq] at hnodup
    have hcomm : (env.bind d.1 d.2).bind e.1 e.2 = (env.bind e.1 e.2).bind d.1 d.2 := by
      refine congrArg Env.plain (((visible_eq_iff ((h.bind _ _).bind _ _)
        ((h.bind _ _).bind _ _)).2 ?_))
      rw [binds_bind, binds_bind, binds_bind, binds_bind, Function.update_comm hne]
    rw [List.foldl_cons, List.foldl_cons, List.foldl_cons, List.foldl_cons, hcomm]
  | trans hperm _ ih ih' =>
    rw [ih hnodup h, ih' ((hperm.map Prod.fst).nodup_iff.1 hnodup) h]

end Env

/-! ### Tables made by entering -/

/-- The table was made by entering environments of ascending names, whose own entered environments
are from the table. -/
inductive EnvTable.Built : EnvTable → Prop
  | empty : Built {}
  | enter {t : EnvTable} {m : Fields Term} (ht : t.Built) (hm : Fields.Ascending m)
    (hentered : ∀ e ∈ m, e.2.Entered t) : Built (t.enter m).2

namespace EnvTable.Built

variable {t : EnvTable}

lemma distinct (h : t.Built) : t.Distinct := by
  induction h with
  | empty => exact .nil
  | enter _ _ _ ih => exact ih.enter _

/-- What stands in the table is an environment with its own entered environments in the table. -/
theorem entries (h : t.Built) :
    ∀ m ∈ t.entries, Fields.Ascending m ∧ ∀ e ∈ m, e.2.Entered t := by
  induction h with
  | empty => exact fun m hm => absurd hm List.not_mem_nil
  | @enter t n ht hn hentered ih =>
    intro m hm
    have hgrow := t.extends_enter n
    rcases @Interner.entries_intern _ ⟨Fields.sameContent⟩ t n m hm with rfl | hm
    · exact ⟨hn, fun e he => Term.Entered.mono hgrow e.2 (hentered e he)⟩
    · exact ⟨(ih m hm).1, fun e he => Term.Entered.mono hgrow e.2 ((ih m hm).2 e he)⟩

end EnvTable.Built

/-- The environment lists its names in ascending order, and entered environments are those of the
table. -/
structure Env.Of (t : EnvTable) (env : Env) : Prop where
  ascending : env.Ascending
  entered : env.Entered t

namespace Env.Of

variable {t u : EnvTable} {a b : Env}

lemma mono (h : a.Of t) (hlater : t.Extends u) : a.Of u :=
  ⟨h.ascending, Env.Entered.mono hlater a h.entered⟩

lemma value (h : a.Of t) {x : Name} {v : Term} (hv : a.binds x = some v) : v.Entered t :=
  h.entered.visible (x, v) (Fields.mem_of_get? (a.visible_get? x ▸ hv))

/-- The code of an environment is its canonical map. -/
theorem code_eq_iff (ha : a.Of t) (hb : b.Of t) :
    a.code = b.code ↔ SameBindings a.binds b.binds := by
  have hpoint : ∀ x, (a.binds x).map Term.code = (b.binds x).map Term.code ↔
      (a.binds x == b.binds x) = true := fun x => by
    cases hv : a.binds x with
    | none => cases b.binds x <;> simp
    | some v =>
      cases hw : b.binds x with
      | none => simp
      | some w => simp [(ha.value hv).beq_iff (hb.value hw)]
  rw [Env.code_eq_iff, Fields.code_eq_iff, SameBindings, ← forall_congr' hpoint]
  constructor
  · intro h x
    rw [← Env.visible_get?, ← Env.visible_get?, ← Fields.get?_map, ← Fields.get?_map, h]
  · intro h
    refine Fields.Ascending.ext (List.pairwise_map.2 ha.ascending.visible)
      (List.pairwise_map.2 hb.ascending.visible) fun x => ?_
    rw [Fields.get?_map, Fields.get?_map, Env.visible_get?, Env.visible_get?, h]

lemma beq_iff (ha : a.Of t) (hb : b.Of t) :
    (a == b) = true ↔ SameBindings a.binds b.binds := by
  rw [ha.entered.beq_iff hb.entered, ha.code_eq_iff hb]

end Env.Of

/-! ### Entering -/

/-- The symbol that an environment was entered under. -/
def Env.symbol? : Env → Option Nat
  | .consed symbol _ => some symbol
  | _ => none

/-- What entering `a` in a table gives: an entered environment and a later table. -/
structure Env.Conses (t : EnvTable) (a c : Env) (u : EnvTable) : Prop where
  built : u.Built
  later : t.Extends u
  entered : ∃ symbol m, c = .consed symbol m
  env : c.Of u
  code : c.code = a.code

lemma EnvTable.Built.conses_cons {t : EnvTable} (ht : t.Built) {a : Env} (ha : a.Of t) :
    a.Conses t (t.cons a.visible).1 (t.cons a.visible).2 := by
  have hbuilt : (t.enter a.visible).2.Built :=
    .enter ht ha.ascending.visible ha.entered.visible
  have hnode : (t.enter a.visible).2.entries[(t.enter a.visible).1.symbol]? =
      some (t.enter a.visible).1.value :=
    (Interner.get?_eq_some_iff.1 (@Interner.get?_intern_symbol _ ⟨Fields.sameContent⟩ t _)).2
  obtain ⟨m, hm, hcode⟩ := t.getElem?_enter a.visible
  cases hnode.symm.trans hm
  obtain ⟨hascending, hvalues⟩ := hbuilt.entries _ (List.mem_of_getElem? hnode)
  exact
    { built := hbuilt
      later := t.extends_enter a.visible
      entered := ⟨_, _, rfl⟩
      env := ⟨hascending, hnode, Env.entered_plain_iff.2 hvalues⟩
      code := Env.code_eq_iff.2 hcode }

lemma EnvTable.Built.conses {t : EnvTable} (ht : t.Built) {a : Env} (ha : a.Of t) :
    a.Conses t (t.consEnv a).1 (t.consEnv a).2 := by
  cases a with
  | consed s m => exact ⟨ht, .refl t, ⟨s, m, rfl⟩, ha, rfl⟩
  | plain m => exact ht.conses_cons ha
  | restricted m used => exact ht.conses_cons ha

/-- Entered environments of one table have one symbol if they are equal. -/
theorem EnvTable.Built.symbol_eq_iff {t : EnvTable} (ht : t.Built) {a b : Env} (ha : a.Of t)
    (hb : b.Of t) (ha' : ∃ symbol m, a = .consed symbol m)
    (hb' : ∃ symbol m, b = .consed symbol m) :
    a.symbol? = b.symbol? ↔ a.code = b.code := by
  obtain ⟨i, m, rfl⟩ := ha'
  obtain ⟨j, n, rfl⟩ := hb'
  rw [Env.symbol?, Env.symbol?, Option.some.injEq, ht.distinct.eq_iff ha.entered.1 hb.entered.1,
    Env.code_eq_iff]
  rfl

/-! ### All forms -/

/-- Environments whose entered parts are from one table do what their canonical maps say, whatever
their forms are. -/
theorem Env.forms_agree {t : EnvTable} (ht : t.Built) {a b : Env} (ha : a.Of t) (hb : b.Of t) :
    let c := t.consEnv a
    let d := c.2.consEnv b
    (∀ x, a.get? x = a.binds x) ∧
    Fields.Ascending a.bindings ∧ (∀ x v, (x, v) ∈ a.bindings ↔ a.binds x = some v) ∧
    a.size = {x | (a.binds x).isSome}.ncard ∧
    (∀ x v, (a.bind x v).binds = Function.update a.binds x (some v)) ∧
    (c.2.Built ∧ t.Extends c.2 ∧ c.1.Of c.2 ∧ (∃ symbol m, c.1 = .consed symbol m) ∧
      SameBindings c.1.binds a.binds) ∧
    ((a == b) = true ↔ SameBindings a.binds b.binds) ∧
    (c.1.symbol? = d.1.symbol? ↔ SameBindings a.binds b.binds) ∧
    (∀ kind, (a.binds = b.binds → (Term.map a kind).ty = (Term.map b kind).ty) ∧
      (SameBindings a.binds b.binds → ((Term.map a kind).ty == (Term.map b kind).ty) = true)) ∧
    ∀ l l' : List (Name × Term), l.Perm l' → (l.map Prod.fst).Nodup →
      l.foldl (fun env e => env.bind e.1 e.2) a = l'.foldl (fun env e => env.bind e.1 e.2) a := by
  intro c d
  have hc := ht.conses ha
  have hd := hc.built.conses (hb.mono hc.later)
  refine ⟨get?_eq_binds ha.ascending, ?ascending, mem_bindings_iff ha.ascending,
    size_eq_ncard ha.ascending, binds_bind a, ?conses, ha.beq_iff hb, ?symbol,
    fun kind => ⟨?ty, ?beq⟩, fun l l' hperm hnodup => foldl_bind_perm hperm hnodup ha.ascending⟩
  case ascending =>
    rw [ha.ascending.bindings_eq]
    exact ha.ascending.visible
  case conses =>
    exact ⟨hc.built, hc.later, hc.env, hc.entered,
      (hc.env.code_eq_iff (ha.mono hc.later)).1 hc.code⟩
  -- A symbol stands for a content, and equal contents are equal bindings.
  case symbol =>
    rw [hd.built.symbol_eq_iff (hc.env.mono hd.later) hd.env hc.entered hd.entered,
      hc.code, hd.code,
      ha.code_eq_iff hb]
  case ty =>
    intro h
    rw [Term.ty, Term.ty, Term.envTys_eq, Term.envTys_eq,
      (visible_eq_iff ha.ascending hb.ascending).2 h]
  case beq =>
    intro h
    have hcode : (Term.map a kind).code = (Term.map b kind).code := by
      rw [Term.code, Term.code, (ha.code_eq_iff hb).2 h]
    have hty : ∀ {env : Env}, env.Of t → (Term.map env kind).ty.Entered t := fun henv =>
      Term.Entered.ty _ henv.entered
    exact ((hty ha).beq_iff (hty hb)).2 (Term.tyCode_of_code _ _ hcode)

/-- One captured name of a larger environment, and the same binding entered. -/
theorem Env.forms_agree_captured :
    let seen : Name × Term := (⟨0⟩, .lit (.bool true))
    let t : EnvTable := (EnvTable.enter {} [seen]).2
    let a : Env := .restricted [seen, (⟨1⟩, .tuple [])] [⟨0⟩]
    let b : Env := .consed 0 [seen]
    t.Built ∧ a.Of t ∧ b.Of t ∧ (a == b) = true ∧ a.size = b.size := by
  intro seen t a b
  have ht : t.Built :=
    .enter .empty (List.pairwise_singleton ..) (List.forall_mem_singleton.2 trivial)
  have ha : a.Of t :=
    { ascending := ⟨.cons (List.forall_mem_singleton.2 (Nat.lt_succ_self 0))
        (List.pairwise_singleton ..), List.pairwise_singleton ..⟩
      entered := ⟨fun _ => trivial, fun h => absurd h (by decide), trivial⟩ }
  have hb : b.Of t := ⟨List.pairwise_singleton .., rfl, fun _ => trivial, trivial⟩
  have hsame : a.binds = b.binds := by
    funext x
    by_cases hx : x = ⟨0⟩
    · rw [hx]
      rfl
    · simp [a, b, seen, binds, hx, Fields.get?_cons]
  have hagree := forms_agree ht ha hb
  refine ⟨ht, ha, hb, hagree.2.2.2.2.2.2.1.2 fun x => ?_, ?_⟩
  · rw [hsame]
    exact BEq.rfl
  · rw [hagree.2.2.2.1, (forms_agree ht hb ha).2.2.2.1, hsame]

end Residual
