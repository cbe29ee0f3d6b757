import Residual.Proofs.Eval.Requests
import Residual.Proofs.Typed.TypeCodes

/-!
Requests with an argument, and the signatures of their keys.

A request for a closure leaves out the name of the argument when it takes the values of the free
names, numbers the variables of the others, and enters the argument last, under the next number.
So a key tells the types of the variables that are passed and the type of the argument, as long
as it also tells which of the entered bindings is the argument.
-/

namespace Residual

lemma Fields.get?_of_nodup {α : Type} {m : Fields α} (h : (m.map Prod.fst).Nodup)
    {e : Name × α} (he : e ∈ m) : Fields.get? m e.1 = some e.2 := by
  induction m with
  | nil => cases he
  | cons d rest ih =>
    obtain ⟨hnew, hrest⟩ := List.nodup_cons.1 h
    rw [Fields.get?_cons]
    rcases List.mem_cons.1 he with rfl | he
    · rw [if_pos rfl]
    · have hne : e.1 ≠ d.1 := fun heq => hnew (heq ▸ List.mem_map_of_mem he)
      rw [if_neg hne, ih hrest he]

namespace Eval

/-- The value of the argument inside the body. -/
def ClosureArg.value (a : ClosureArg) (tag : Tag) : Term :=
  if a.dom.isUnit then .ofUnit a.dom else .var ⟨tag, a.dom⟩

lemma ClosureArg.ty_value (a : ClosureArg) (tag : Tag) : (a.value tag).ty = a.dom := by
  unfold ClosureArg.value
  split
  · exact Term.ty_ofUnit a.dom
  · rfl

/-- The names whose values are captured. -/
def capturedNames (store : Store) (body : Expr) (arg : Option ClosureArg) : List Name :=
  ((Build.freeNames body).run store).1.filter fun x => !arg.any fun a => a.name == x

/-- The bindings that are entered for a request. -/
def enteredFields (raw : List (Name × Term)) (arg : Option ClosureArg) (tag : Tag) : Fields Term :=
  Fields.ofList (raw ++ arg.toList.map fun a => (a.name, a.value tag))

/-- What a request with or without an argument went through: the values of the captured names are
renamed to `raw`, and entered together with the argument. -/
structure Requested (env : Env) (body : Expr) (arg : Option ClosureArg) (w : World) (key : Key)
    (captured : Captured) (w' : World) (values raw : Fields Term) (r : Renaming) : Prop where
  names : values.map Prod.fst = capturedNames w.session.store body arg
  taken : ∀ e ∈ values, env.get? e.1 = some e.2
  renamed : (Rename.inOrder (Rename.fields values)).run { envs := w.session.envs } = some (raw, r)
  node : r.envs.enter (enteredFields raw arg r.tags.next) =
    (⟨captured.envSymbol, captured.env⟩, w'.session.envs)
  args : captured.args = r.args
  params : captured.params = r.params
  closureParam : captured.closureParam = arg.map fun a => ⟨r.tags.next, a.dom⟩
  tags : captured.tags.next = r.tags.next + arg.toList.length
  key : key.symbol = (w.session.keys.intern ⟨body, captured.envSymbol, captured.env⟩).1.symbol
  store : w'.session.store = ((Build.freeNames body).run w.session.store).2
  keys : w'.session.keys = (w.session.keys.intern ⟨body, captured.envSymbol, captured.env⟩).2
  session : w'.session = { w.session with
    store := w'.session.store, envs := w'.session.envs, keys := w'.session.keys }
  scope : w'.scope = w.scope

lemma get?_of_lookupAll {env : Env} {names : List Name} {w w' : World}
    {values : List (Name × Term)} (h : exec (lookupAll env names) w = (.ok values, w')) :
    ∀ e ∈ values, env.get? e.1 = some e.2 := by
  induction names generalizing values w w' with
  | nil =>
    cases h
    exact fun e he => absurd he List.not_mem_nil
  | cons x rest ih =>
    unfold lookupAll at h
    cases hx : env.get? x with
    | none =>
      rw [hx] at h
      cases h
    | some t =>
      rw [hx] at h
      obtain ⟨values', w₁, hrest, h⟩ := exec_bind_eq_ok.1 h
      cases h
      exact List.forall_mem_cons.2 ⟨hx, ih hrest⟩

lemma run_renameCaptures {values : Fields Term} {arg : Option ClosureArg} {r₀ s : Renaming}
    {captures : Fields Term} {closureParam : Option Var}
    (h : (renameCaptures values arg).run r₀ = some ((captures, closureParam), s)) :
    ∃ raw r, (Rename.inOrder (Rename.fields values)).run r₀ = some (raw, r) ∧
      captures = enteredFields raw arg r.tags.next ∧
      closureParam = arg.map (fun a => ⟨r.tags.next, a.dom⟩) ∧
      s = { r with tags := ⟨r.tags.next + arg.toList.length⟩ } := by
  rw [renameCaptures, mapM_term_eq_inOrder] at h
  obtain ⟨raw, r, hraw, h⟩ := Rename.run_bind.1 h
  refine ⟨raw, r, hraw, ?_⟩
  cases arg with
  | none =>
    obtain ⟨hcaptures, rfl⟩ := Rename.run_pure.1 h
    cases hcaptures
    exact ⟨by simp [enteredFields], rfl, rfl⟩
  | some a =>
    obtain ⟨v, s', hfresh, h⟩ := Rename.run_bind.1 h
    obtain ⟨tag, t, htag, hv⟩ := Rename.run_bind.1 hfresh
    obtain ⟨-, rfl, rfl⟩ := Rename.run_freshTag.1 htag
    obtain ⟨rfl, rfl⟩ := Rename.run_pure.1 hv
    obtain ⟨hcaptures, rfl⟩ := Rename.run_pure.1 h
    cases hcaptures
    exact ⟨rfl, rfl, rfl⟩

lemma requested_of_request {env : Env} {body : Expr} {arg : Option ClosureArg} {w w' : World}
    {key : Key} {captured : Captured}
    (h : exec (request env body arg) w = (.ok (key, captured), w')) :
    ∃ values raw r, Requested env body arg w key captured w' values raw r := by
  obtain ⟨c, w₁, hcapture, hkey⟩ := exec_bind_eq_ok.1 h
  obtain ⟨free, w₂, hfree, hcapture⟩ := exec_bind_eq_ok.1 hcapture
  rw [exec_build] at hfree
  cases hfree
  obtain ⟨values, w₃, hvalues, hcapture⟩ := exec_bind_eq_ok.1 hcapture
  have htaken := get?_of_lookupAll hvalues
  obtain ⟨rfl, hnames, -⟩ := exec_lookupAll hvalues
  obtain ⟨⟨⟨captures, closureParam⟩, s⟩, w₄, hrename, hcapture⟩ := exec_bind_eq_ok.1 hcapture
  rw [exec_rename] at hrename
  split at hrename
  · cases hrename
  · rename_i p hrun
    cases hrename
    obtain ⟨raw, r, hraw, rfl, rfl, rfl⟩ := run_renameCaptures hrun
    cases hcapture
    cases hkey
    exact ⟨values, raw, r, hnames, htaken, hraw, rfl, rfl, rfl, rfl, rfl, rfl, rfl, rfl, rfl, rfl⟩

namespace Requested

variable {env : Env} {body : Expr} {arg : Option ClosureArg} {w w' : World} {key : Key}
  {captured : Captured} {values raw : Fields Term} {r : Renaming}

lemma keyed (h : Requested env body arg w key captured w' values raw r) :
    w'.session.Keyed key body (enteredFields raw arg r.tags.next) :=
  .of_intern h.key h.keys (by rw [h.node]) (by rw [h.node])

lemma formed (h : Requested env body arg w key captured w' values raw r) (henv : env.Formed) :
    ∀ e ∈ values, e.2.Formed :=
  fun e he => henv.get? (h.taken e he)

lemma grows (h : Requested env body arg w key captured w' values raw r) :
    w.session.Grows w'.session := by
  have hdoes : Build.Does False (Build.freeNames body) (False → ·.Nodup) :=
    Build.does_freeNames False.elim
  have hrename := (Rename.grows_inOrder (Rename.grows_fields values) _ _ _ h.renamed).envs
  have henter := EnvTable.extends_enter r.envs (enteredFields raw arg r.tags.next)
  rw [h.node] at henter
  refine ⟨?_, hrename.trans henter, ?_⟩
  · rw [h.store]
    exact (hdoes w.session.store False.elim).1
  · rw [h.keys]
    exact Interner.extends_intern _ _

/-- The variables are numbered by first occurrence, and the bindings have the code of the values
with these numbers. -/
theorem numbered (h : Requested env body arg w key captured w' values raw r)
    (hformed : ∀ e ∈ values, e.2.Formed) :
    r.After (Env.varsOfFields (fun _ => true) (Env.solidFields values)) ∧
      Fields.code raw = Fields.code (Env.retagFields
        (Var.number (Env.varsOfFields (fun _ => true) (Env.solidFields values)))
        (Env.solidFields values)) := by
  have hterm : ∀ e ∈ values, Rename.Numbers (Rename.term e.2) e.2.solid.vars fun σ t =>
      t.code = (e.2.solid.retag σ).code := fun e he => Rename.numbers_term e.2 (hformed e he)
  obtain ⟨hafter, hcode⟩ :=
    Rename.numbers_inOrder hterm _ _ _ [] h.renamed (Renaming.After.start _)
  have hcode := hcode []
  rw [List.append_nil] at hcode
  exact ⟨hafter, hcode⟩

lemma names_raw (h : Requested env body arg w key captured w' values raw r)
    (hformed : ∀ e ∈ values, e.2.Formed) : raw.map Prod.fst = values.map Prod.fst := by
  rw [Fields.names_of_code (h.numbered hformed).2, Env.names_retagFields, Env.names_solidFields]

/-- The variables of the renamed bindings are the parameters, in order of first occurrence. -/
theorem marks_params (h : Requested env body arg w key captured w' values raw r)
    (hformed : ∀ e ∈ values, e.2.Formed) :
    captured.params.map (Var.mark id) =
      (Var.firsts (Env.varsOfFields (fun _ => true) raw)).map (Var.mark id) := by
  obtain ⟨hafter, hcode⟩ := h.numbered hformed
  have hid : Fields.code raw = Fields.code (Env.retagFields id raw) :=
    (Env.codeFields_retag_id _ raw).symm
  rw [hid] at hcode
  have hmarks := ((Env.codeFields_retag_iff _ raw _ id _).1 hcode).2
  have hinj : Var.InjOn (Var.number (Env.varsOfFields (fun _ => true) (Env.solidFields values)))
      (Env.varsOfFields (fun _ => true) (Env.solidFields values)) :=
    fun _ hs _ ht heq => Var.number_inj hs ht heq
  rw [← Var.firsts_mark hinj hmarks.symm, h.params, hafter.params, List.map_map]
  rfl

lemma params_ty (h : Requested env body arg w key captured w' values raw r)
    (hformed : ∀ e ∈ values, e.2.Formed) :
    captured.params.map Var.ty = captured.args.map Var.ty := by
  rw [h.params, h.args]
  exact (h.numbered hformed).1.params_ty

/-- The variables of the renamed bindings have numbers below that of the argument. -/
theorem tag_lt (h : Requested env body arg w key captured w' values raw r)
    (hformed : ∀ e ∈ values, e.2.Formed) {m : Tag × Code}
    (hm : m ∈ (Env.varsOfFields (fun _ => true) raw).map (Var.mark id)) : m.1 < r.tags.next := by
  obtain ⟨v, hv, rfl⟩ := List.mem_map.1 hm
  have htags : captured.params.map Var.tag =
      (Var.firsts (Env.varsOfFields (fun _ => true) raw)).map Var.tag := by
    have hmarks := congrArg (List.map Prod.fst) (h.marks_params hformed)
    rwa [List.map_map, List.map_map] at hmarks
  have hmem : v.tag ∈ captured.params.map Var.tag := by
    rw [htags]
    exact Var.mem_firsts.2 (List.mem_map_of_mem hv)
  rw [h.params, (h.numbered hformed).1.params_tag] at hmem
  exact List.mem_range.1 hmem

/-- The argument is entered beside the captured values. -/
lemma get?_entered {a : ClosureArg}
    (h : Requested env body (some a) w key captured w' values raw r)
    (hformed : ∀ e ∈ values, e.2.Formed) (hnodup : (values.map Prod.fst).Nodup) (x : Name) :
    Fields.get? (enteredFields raw (some a) r.tags.next) x =
      if x = a.name then some (a.value r.tags.next) else Fields.get? raw x := by
  have hnew : a.name ∉ raw.map Prod.fst := by
    rw [h.names_raw hformed, h.names]
    simp [capturedNames]
  have hnodup' : ((raw ++ [(a.name, a.value r.tags.next)]).map Prod.fst).Nodup := by
    rw [List.map_append, List.nodup_append]
    refine ⟨(h.names_raw hformed).symm ▸ hnodup, by simp, fun y hy z hz heq => hnew ?_⟩
    rw [List.map_singleton, List.mem_singleton] at hz
    rwa [heq, hz] at hy
  have hget : Fields.get? (enteredFields raw (some a) r.tags.next) x =
      Fields.get? (raw ++ [(a.name, a.value r.tags.next)]) x := Fields.get?_ofList hnodup' x
  rw [hget, Fields.get?, List.lookup_append]
  change (Fields.get? raw x).or (Fields.get? [(a.name, a.value r.tags.next)] x) = _
  rw [Fields.get?_cons, Fields.get?_nil]
  split
  · rename_i hx
    have hnone : Fields.get? raw a.name = none :=
      Fields.get?_eq_none fun e he heq => hnew (heq ▸ List.mem_map_of_mem he)
    rw [hx, hnone]
    rfl
  · rw [Option.or_none]

end Requested

section Two

variable {env₁ env₂ : Env} {body₁ body₂ : Expr} {a₁ a₂ : ClosureArg} {w₁ w₁' w₂ w₂' : World}
  {key₁ key₂ : Key} {captured₁ captured₂ : Captured} {values₁ raw₁ values₂ raw₂ : Fields Term}
  {r₁ r₂ : Renaming}

/-- Two requests for closures that got the same key. -/
structure SameKey (h₁ : Requested env₁ body₁ (some a₁) w₁ key₁ captured₁ w₁' values₁ raw₁ r₁)
    (h₂ : Requested env₂ body₂ (some a₂) w₂ key₂ captured₂ w₂' values₂ raw₂ r₂) : Prop where
  formed₁ : ∀ e ∈ values₁, e.2.Formed
  formed₂ : ∀ e ∈ values₂, e.2.Formed
  nodup : ((Build.freeNames body₁).run w₁.session.store).1.Nodup
  free : ((Build.freeNames body₂).run w₂.session.store).1 =
    ((Build.freeNames body₁).run w₁.session.store).1
  entered : Fields.code (enteredFields raw₁ (some a₁) r₁.tags.next) =
    Fields.code (enteredFields raw₂ (some a₂) r₂.tags.next)

namespace SameKey

variable {h₁ : Requested env₁ body₁ (some a₁) w₁ key₁ captured₁ w₁' values₁ raw₁ r₁}
  {h₂ : Requested env₂ body₂ (some a₂) w₂ key₂ captured₂ w₂' values₂ raw₂ r₂}

lemma symm (h : SameKey h₁ h₂) : SameKey h₂ h₁ :=
  ⟨h.formed₂, h.formed₁, h.free ▸ h.nodup, h.free.symm, h.entered.symm⟩

lemma names₁ (h : SameKey h₁ h₂) : raw₁.map Prod.fst =
    ((Build.freeNames body₁).run w₁.session.store).1.filter fun x => !a₁.name == x :=
  (h₁.names_raw h.formed₁).trans h₁.names

lemma names₂ (h : SameKey h₁ h₂) : raw₂.map Prod.fst =
    ((Build.freeNames body₁).run w₁.session.store).1.filter fun x => !a₂.name == x := by
  rw [← h.free]
  exact h.symm.names₁

lemma nodup₁ (h : SameKey h₁ h₂) : (raw₁.map Prod.fst).Nodup := by
  rw [h.names₁]
  exact h.nodup.sublist List.filter_sublist

lemma name_ne (h : SameKey h₁ h₂) {e : Name × Term} (he : e ∈ raw₁) : e.1 ≠ a₁.name := by
  intro heq
  have hmem : a₁.name ∈ raw₁.map Prod.fst := heq ▸ List.mem_map_of_mem he
  rw [h.names₁] at hmem
  simp at hmem

/-- What is entered under a name has the same code both times. -/
theorem code_eq (h : SameKey h₁ h₂) (x : Name) :
    (if x = a₁.name then some (a₁.value r₁.tags.next) else Fields.get? raw₁ x).map Term.code =
      (if x = a₂.name then some (a₂.value r₂.tags.next) else Fields.get? raw₂ x).map
        Term.code := by
  have hnodup₁ := (h₁.names_raw h.formed₁) ▸ h.nodup₁
  have hnodup₂ := (h₂.names_raw h.formed₂) ▸ h.symm.nodup₁
  rw [← h₁.get?_entered h.formed₁ hnodup₁, ← h₂.get?_entered h.formed₂ hnodup₂, ← Fields.get?_map,
    ← Fields.get?_map, Fields.code_eq_iff.1 h.entered]

/-- The argument of one request that the other one captured. -/
lemma captured_arg (h : SameKey h₁ h₂) (hne : a₁.name ≠ a₂.name) :
    ∃ t, Fields.get? raw₂ a₁.name = some t ∧ t.code = (a₁.value r₁.tags.next).code := by
  have hcode := h.code_eq a₁.name
  rw [if_pos rfl, if_neg hne, Option.map_some] at hcode
  obtain ⟨t, ht, htcode⟩ := Option.map_eq_some_iff.1 hcode.symm
  exact ⟨t, ht, htcode⟩

lemma number_lt (h : SameKey h₁ h₂) (hne : a₁.name ≠ a₂.name) (hdata : a₁.dom.isUnit = false) :
    r₁.tags.next < r₂.tags.next := by
  obtain ⟨t, ht, hcode⟩ := h.captured_arg hne
  have hmarks : t.vars.map (Var.mark id) = [(r₁.tags.next, a₁.dom.code)] := by
    rw [Term.marks_of_code hcode, ClosureArg.value, hdata]
    rfl
  have hmem : (r₁.tags.next, a₁.dom.code) ∈ t.vars.map (Var.mark id) := by
    rw [hmarks]
    exact List.mem_singleton_self _
  obtain ⟨v, hv, heq⟩ := List.mem_map.1 hmem
  refine h₂.tag_lt h.formed₂ (m := (r₁.tags.next, a₁.dom.code)) ?_
  rw [← heq]
  exact List.mem_map_of_mem (Env.mem_varsOfFields (Fields.mem_of_get? ht) hv)

/-- If both arguments are run-time data, they have one name: otherwise each would be a captured
variable of the other request, with a number below that of the argument. -/
theorem name_eq (h : SameKey h₁ h₂) (hdata₁ : a₁.dom.isUnit = false)
    (hdata₂ : a₂.dom.isUnit = false) : a₁.name = a₂.name := by
  refine Decidable.byContradiction fun hne => ?_
  have hlt₁ : r₁.tags.next < r₂.tags.next := h.number_lt hne hdata₁
  exact Nat.lt_asymm hlt₁ (h.symm.number_lt (Ne.symm hne) hdata₂)

/-- An argument under the same name has the same type. -/
theorem dom_eq (h : SameKey h₁ h₂) (hname : a₁.name = a₂.name) : a₁.dom.code = a₂.dom.code := by
  have hcode := h.code_eq a₁.name
  rw [if_pos rfl, if_pos hname] at hcode
  have hvalue : (a₁.value r₁.tags.next).code = (a₂.value r₂.tags.next).code := Option.some.inj hcode
  have hty := Term.tyCode_of_code _ _ hvalue
  rwa [ClosureArg.ty_value, ClosureArg.ty_value] at hty

/-- The bindings of names that are captured both times. -/
lemma code_common (h : SameKey h₁ h₂) :
    Fields.code (raw₁.erase a₂.name) = Fields.code (raw₂.erase a₁.name) := by
  have hnames : ∀ (m : Fields Term) (x : Name),
      ((Fields.erase m x).map fun e => (e.1, e.2.code)).map Prod.fst =
        (m.map Prod.fst).filter (· ≠ x) := by
    intro m x
    rw [List.map_map, List.filter_map]
    rfl
  rw [Fields.code_eq_iff]
  refine Fields.eq_of_get? ?_ ?_ fun x => ?_
  · rw [hnames]
    exact h.nodup₁.sublist List.filter_sublist
  · rw [hnames, hnames, h.names₁, h.names₂, List.filter_filter, List.filter_filter]
    refine List.filter_congr fun x _ => ?_
    grind
  · have hcode := h.code_eq x
    have hnone₁ : Fields.get? raw₁ a₁.name = none := Fields.get?_eq_none fun _ => h.name_ne
    have hnone₂ : Fields.get? raw₂ a₂.name = none := Fields.get?_eq_none fun _ => h.symm.name_ne
    rw [Fields.get?_map, Fields.get?_map, Fields.get?_erase, Fields.get?_erase]
    grind

/-- Where the argument of neither request is a captured variable of the other, the arguments of
the calls have the same types. -/
theorem tys_eq (h : SameKey h₁ h₂) (hvars₁ : ∀ e ∈ raw₁, e.1 = a₂.name → e.2.vars = [])
    (hvars₂ : ∀ e ∈ raw₂, e.1 = a₁.name → e.2.vars = []) :
    captured₁.args.map (fun v => v.ty.code) = captured₂.args.map (fun v => v.ty.code) := by
  have hmarks := Fields.marks_of_code h.code_common
  rw [Env.varsOfFields_erase hvars₁, Env.varsOfFields_erase hvars₂] at hmarks
  have hfirsts := Var.firsts_mark (σ := id) (fun _ _ _ _ heq => heq) hmarks
  rw [← h₁.marks_params h.formed₁, ← h₂.marks_params h.formed₂] at hfirsts
  have htys := congrArg (List.map Prod.snd) hfirsts
  rw [List.map_map, List.map_map] at htys
  have hargs : ∀ {c : Captured}, c.params.map Var.ty = c.args.map Var.ty →
      c.params.map (Prod.snd ∘ Var.mark id) = c.args.map fun v => v.ty.code := by
    intro c hc
    have hcodes := congrArg (List.map Ty.code) hc
    rwa [List.map_map, List.map_map] at hcodes
  rwa [hargs (h₁.params_ty h.formed₁), hargs (h₂.params_ty h.formed₂)] at htys

lemma tys_eq_of_name (h : SameKey h₁ h₂) (hname : a₁.name = a₂.name) :
    captured₁.args.map (fun v => v.ty.code) = captured₂.args.map (fun v => v.ty.code) :=
  h.tys_eq (fun _ he heq => absurd (heq.trans hname.symm) (h.name_ne he))
    fun _ he heq => absurd (heq.trans hname) (h.symm.name_ne he)

/-- What one request captured as the argument of the other has no variables, if it is no run-time
data. -/
lemma vars_eq_nil (h : SameKey h₁ h₂) (hunit : a₁.dom.isUnit = true) {e : Name × Term}
    (he : e ∈ raw₂) (hname : e.1 = a₁.name) : e.2.vars = [] := by
  have hne : a₁.name ≠ a₂.name := fun heq => h.symm.name_ne he (hname.trans heq)
  obtain ⟨t, ht, hcode⟩ := h.captured_arg hne
  have hget := Fields.get?_of_nodup h.symm.nodup₁ he
  rw [hname, ht] at hget
  cases hget
  rw [ClosureArg.value, if_pos hunit] at hcode
  have hmarks := Term.marks_of_code hcode
  rw [Term.vars_ofUnit] at hmarks
  exact List.map_eq_nil_iff.1 hmarks

/-- Requests with equal domains pass variables of the same types. -/
theorem tys_eq_of_dom (h : SameKey h₁ h₂) (hdom : a₁.dom.code = a₂.dom.code) :
    captured₁.args.map (fun v => v.ty.code) = captured₂.args.map (fun v => v.ty.code) := by
  have hunit := Ty.isUnit_of_code _ _ hdom
  cases hu : a₁.dom.isUnit with
  | false => exact h.tys_eq_of_name (h.name_eq hu (hunit ▸ hu))
  | true =>
    exact h.tys_eq (fun _ he => h.symm.vars_eq_nil (hunit ▸ hu) he) fun _ he =>
      h.vars_eq_nil hu he

end SameKey

end Two

end Eval

end Residual
