import Residual.Proofs.Eval.Points
import Residual.Proofs.Typed.Numbering
import Residual.Proofs.Typed.Symbols

/-!
Requests and their keys.

A request takes the values of the free names of a body, numbers their variables, and looks the
result up: first the values in the table of environments, then the body with their symbol in the
table of keys. Both tables only grow. So two requests of one body get the same key exactly if
their values are one up to an injective change of tags.
-/

namespace Residual

/-! ### Symbols -/

lemma KeyData.beq_iff {a b : KeyData} :
    (a == b) = true ↔ a.body.symbol = b.body.symbol ∧ a.envSymbol = b.envSymbol := by
  change (a.body.symbol == b.body.symbol && a.envSymbol == b.envSymbol) = true ↔ _
  simp

instance : EquivBEq KeyData where
  rfl := KeyData.beq_iff.2 ⟨rfl, rfl⟩
  symm h := by
    obtain ⟨h₁, h₂⟩ := KeyData.beq_iff.1 h
    exact KeyData.beq_iff.2 ⟨h₁.symm, h₂.symm⟩
  trans h k := by
    obtain ⟨h₁, h₂⟩ := KeyData.beq_iff.1 h
    obtain ⟨k₁, k₂⟩ := KeyData.beq_iff.1 k
    exact KeyData.beq_iff.2 ⟨h₁.trans k₁, h₂.trans k₂⟩

/-- The key stands for the body with bindings of the content of `m`. -/
def Session.Keyed (s : Session) (key : Key) (body : Expr) (m : Fields Term) : Prop :=
  ∃ d x, s.keys.entries[key.symbol]? = some d ∧ d.body.symbol = body.symbol ∧
    s.envs.entries[d.envSymbol]? = some x ∧ Fields.code x = Fields.code m

namespace Session.Keyed

variable {s s' : Session} {key : Key} {body body' : Expr} {m m' : Fields Term}

lemma mono (h : s.Keyed key body m) (hs : s.Grows s') : s'.Keyed key body m := by
  obtain ⟨d, x, hd, hbody, hx, hcode⟩ := h
  exact ⟨d, x, hs.keys.getElem? hd, hbody, hs.envs.getElem? hx, hcode⟩

/-- A key stands for one body and one content. -/
theorem unique (h : s.Keyed key body m) (h' : s.Keyed key body' m') :
    body.symbol = body'.symbol ∧ Fields.code m = Fields.code m' := by
  obtain ⟨d, x, hd, hbody, hx, hcode⟩ := h
  obtain ⟨d', x', hd', hbody', hx', hcode'⟩ := h'
  cases hd.symm.trans hd'
  cases hx.symm.trans hx'
  exact ⟨hbody.symm.trans hbody', hcode.symm.trans hcode'⟩

/-- The bindings are entered, and then the body with them. -/
theorem of_intern {envs : EnvTable} {symbol : Nat} {env : Fields Term}
    (hkey : key.symbol = (s.keys.intern ⟨body, symbol, env⟩).1.symbol)
    (hkeys : s'.keys = (s.keys.intern ⟨body, symbol, env⟩).2)
    (hsymbol : symbol = (envs.enter m).1.symbol) (henvs : s'.envs = (envs.enter m).2) :
    s'.Keyed key body m := by
  obtain ⟨d, hd, hsame⟩ := Interner.getElem?_intern s.keys ⟨body, symbol, env⟩
  obtain ⟨x, hx, hcode⟩ := EnvTable.getElem?_enter envs m
  obtain ⟨hbody, hsym⟩ : d.body.symbol = body.symbol ∧ d.envSymbol = symbol :=
    KeyData.beq_iff.1 hsame
  rw [← hkeys, ← hkey] at hd
  rw [← henvs, ← hsymbol, ← hsym] at hx
  exact ⟨d, x, hd, hbody, hx, hcode⟩

end Session.Keyed

/-! ### Free names -/

namespace Build

lemma run_freeNames (e : Expr) (st : Store) :
    ∃ unfold, (freeNames e).run st = (freeNamesWith unfold e).run st :=
  ⟨_, rfl⟩

/-- Free names are there for the next time. -/
lemma lookup_freeNames (e : Expr) (st : Store) :
    ((freeNames e).run st).2.freeNames.lookup e.symbol = some ((freeNames e).run st).1 := by
  obtain ⟨unfold, hrun⟩ := run_freeNames e st
  obtain ⟨symbol, kind⟩ := e
  rw [hrun, freeNamesWith]
  simp only [StateT.run_bind, StateT.run_get, pure_bind]
  cases h : st.freeNames.lookup symbol with
  | some names => exact h
  | none => exact List.lookup_cons_self

/-- Stores that have a common successor give a node the same free names. -/
theorem freeNames_eq {a b : Expr} {st₁ st₂ st : Store} (hsymbol : a.symbol = b.symbol)
    (h₁ : ((freeNames a).run st₁).2.Grows st) (h₂ : ((freeNames b).run st₂).2.Grows st) :
    ((freeNames a).run st₁).1 = ((freeNames b).run st₂).1 := by
  have hlookup₁ := h₁.freeNames _ _ (lookup_freeNames a st₁)
  have hlookup₂ := h₂.freeNames _ _ (lookup_freeNames b st₂)
  rw [hsymbol] at hlookup₁
  exact Option.some.inj (hlookup₁.symm.trans hlookup₂)

end Build

/-! ### Requests -/

namespace Eval

/-- The values that a body captures from an environment. -/
def capturedValues (w : World) (env : Env) (body : Expr) : List Term :=
  ((Build.freeNames body).run w.session.store).1.filterMap env.get?

lemma exec_lookupAll {env : Env} {names : List Name} {w w' : World}
    {values : List (Name × Term)} (h : exec (lookupAll env names) w = (.ok values, w')) :
    w' = w ∧ values.map Prod.fst = names ∧ values.map Prod.snd = names.filterMap env.get? := by
  induction names generalizing values w w' with
  | nil =>
    cases h
    exact ⟨rfl, rfl, rfl⟩
  | cons x rest ih =>
    unfold lookupAll at h
    cases hx : env.get? x with
    | none =>
      rw [hx] at h
      cases h
    | some t =>
      rw [hx] at h
      dsimp only at h
      rcases hrun : exec (lookupAll env rest) w with ⟨_ | values', w₁⟩
      · rw [exec_bind_of_error hrun] at h
        cases h
      · rw [exec_bind_of_ok hrun] at h
        cases h
        obtain ⟨rfl, hnames, hvalues⟩ := ih hrun
        exact ⟨rfl, by simp [hnames], by simp [hvalues, hx]⟩

/-- Captured values are renamed like the bindings of a map. -/
theorem mapM_term_eq_inOrder (values : List (Name × Term)) :
    (values.mapM fun e => do return (e.1, ← Rename.term e.2) : Rename _) =
      Rename.inOrder (Rename.fields values) := by
  unfold Rename.inOrder
  induction values with
  | nil => rfl
  | cons e rest ih => rw [Rename.fields, List.mapM_cons, List.mapM_cons, ih]

lemma renameCaptures_none (values : List (Name × Term)) :
    renameCaptures values none = do
      return (Fields.ofList (← Rename.inOrder (Rename.fields values)), none) := by
  rw [renameCaptures, mapM_term_eq_inOrder]

/-- What an answered request went through: the values of the free names are renamed to `raw`, and
entered. -/
structure Answered (env : Env) (body : Expr) (w : World) (key : Key) (captured : Captured)
    (w' : World) (values raw : Fields Term) (r : Renaming) : Prop where
  names : values.map Prod.fst = ((Build.freeNames body).run w.session.store).1
  taken : values.map Prod.snd = capturedValues w env body
  renamed : (Rename.inOrder (Rename.fields values)).run { envs := w.session.envs } = some (raw, r)
  envSymbol : captured.envSymbol = (r.envs.enter (Fields.ofList raw)).1.symbol
  args : captured.args = r.args
  params : captured.params = r.params
  key : key.symbol =
    (w.session.keys.intern ⟨body, captured.envSymbol, captured.env⟩).1.symbol
  store : w'.session.store = ((Build.freeNames body).run w.session.store).2
  envs : w'.session.envs = (r.envs.enter (Fields.ofList raw)).2
  keys : w'.session.keys = (w.session.keys.intern ⟨body, captured.envSymbol, captured.env⟩).2

lemma exec_request {env : Env} {body : Expr} {w w' : World} {key : Key} {captured : Captured}
    (h : exec (request env body none) w = (.ok (key, captured), w')) :
    ∃ values raw r, Answered env body w key captured w' values raw r := by
  obtain ⟨c, w₁, hcapture, hkey⟩ := exec_bind_eq_ok.1 h
  obtain ⟨free, w₂, hfree, hcapture⟩ := exec_bind_eq_ok.1 hcapture
  rw [exec_build] at hfree
  cases hfree
  obtain ⟨values, w₃, hvalues, hcapture⟩ := exec_bind_eq_ok.1 hcapture
  obtain ⟨rfl, hnames, hvalues⟩ := exec_lookupAll hvalues
  have hall : ∀ names : List Name,
      (names.filter fun x => !(none : Option ClosureArg).any fun a => a.name == x) = names :=
    fun names => List.filter_eq_self.2 fun _ _ => rfl
  rw [hall] at hnames hvalues
  obtain ⟨⟨⟨captures, closureParam⟩, r⟩, w₄, hrename, hcapture⟩ := exec_bind_eq_ok.1 hcapture
  rw [exec_rename, renameCaptures_none] at hrename
  split at hrename
  · cases hrename
  · rename_i p hrun
    cases hrename
    obtain ⟨raw, r', hraw, hpure⟩ := Rename.run_bind.1 hrun
    obtain ⟨hcaptures, rfl⟩ := Rename.run_pure.1 hpure
    cases hcaptures
    cases hcapture
    cases hkey
    exact ⟨values, raw, r', hnames, hvalues, hraw, rfl, rfl, rfl, rfl, rfl, rfl, rfl⟩

namespace Answered

variable {env : Env} {body : Expr} {w w' : World} {key : Key} {captured : Captured}
  {values raw : Fields Term} {r : Renaming}

lemma nodup (h : Answered env body w key captured w' values raw r)
    (hstore : w.session.store.Sorted) (hbody : body.Sorted) : (values.map Prod.fst).Nodup := by
  have hdoes : Build.Does True (Build.freeNames body) (True → ·.Nodup) :=
    Build.does_freeNames fun _ => hbody
  rw [h.names]
  exact (hdoes w.session.store fun _ => hstore).2.2 trivial

lemma grows (h : Answered env body w key captured w' values raw r) :
    w.session.Grows w'.session := by
  have hdoes : Build.Does False (Build.freeNames body) (False → ·.Nodup) :=
    Build.does_freeNames False.elim
  have hrename := (Rename.grows_inOrder (Rename.grows_fields values) _ _ _ h.renamed).envs
  refine ⟨?_, ?_, ?_⟩
  · rw [h.store]
    exact (hdoes w.session.store False.elim).1
  · rw [h.envs]
    exact hrename.trans (EnvTable.extends_enter _ _)
  · rw [h.keys]
    exact Interner.extends_intern _ _

lemma keyed (h : Answered env body w key captured w' values raw r) :
    w'.session.Keyed key body (Fields.ofList raw) :=
  .of_intern h.key h.keys h.envSymbol h.envs

/-- The variables are numbered by first occurrence, and the bindings have the codes of the values
with these numbers. -/
theorem numbered (h : Answered env body w key captured w' values raw r)
    (hformed : ∀ t ∈ capturedValues w env body, t.Formed) :
    r.After (Term.varsOfAll (Term.solidAll (capturedValues w env body))) ∧
      raw.map Prod.fst = values.map Prod.fst ∧
      raw.map (fun e => e.2.code) = (Term.numbered (capturedValues w env body)).map Term.code := by
  have hterm : ∀ e ∈ values, Rename.Numbers (Rename.term e.2) e.2.solid.vars fun σ t =>
      t.code = (e.2.solid.retag σ).code := fun e he =>
    Rename.numbers_term e.2 (hformed e.2 (h.taken ▸ List.mem_map_of_mem he))
  obtain ⟨hafter, hcode⟩ :=
    Rename.numbers_inOrder hterm _ _ _ [] h.renamed (Renaming.After.start _)
  have hcode := Fields.code_eq_iff.1 (hcode [])
  rw [List.append_nil, List.nil_append, Env.varsOfFields_solid, h.taken] at hcode
  rw [List.nil_append, Env.varsOfFields_solid, h.taken] at hafter
  refine ⟨hafter, ?_, ?_⟩
  · have hnames := congrArg (List.map Prod.fst) hcode
    rw [List.map_map, List.map_map] at hnames
    exact hnames.trans ((Env.names_retagFields _ _).trans (Env.names_solidFields _))
  · have hcodes := congrArg (List.map Prod.snd) hcode
    rw [List.map_map, List.map_map] at hcodes
    refine hcodes.trans ?_
    rw [Term.numbered, ← h.taken, ← Env.values_retagFields, List.map_map]
    rfl

/-- The arguments are the first occurrences of the variables, and the parameters have their
types. -/
theorem args_eq (h : Answered env body w key captured w' values raw r)
    (hformed : ∀ t ∈ capturedValues w env body, t.Formed) :
    captured.args = Var.firsts (Term.varsOfAll (Term.solidAll (capturedValues w env body))) ∧
      captured.params.map Var.ty = captured.args.map Var.ty := by
  obtain ⟨hafter, -, -⟩ := h.numbered hformed
  rw [h.args, h.params, hafter.args, hafter.params, List.map_map]
  exact ⟨rfl, rfl⟩

end Answered

section Two

variable {env₁ env₂ : Env} {body₁ body₂ : Expr} {w₁ w₁' w₂ w₂' : World} {key₁ key₂ : Key}
  {captured₁ captured₂ : Captured} {values₁ raw₁ values₂ raw₂ : Fields Term} {r₁ r₂ : Renaming}

/-- Requests of one body in sessions that have a common successor ask for the same names. -/
theorem Answered.names_eq (h₁ : Answered env₁ body₁ w₁ key₁ captured₁ w₁' values₁ raw₁ r₁)
    (h₂ : Answered env₂ body₂ w₂ key₂ captured₂ w₂' values₂ raw₂ r₂) {s : Session}
    (hs₁ : w₁'.session.Grows s) (hs₂ : w₂'.session.Grows s)
    (hbody : body₁.symbol = body₂.symbol) : values₂.map Prod.fst = values₁.map Prod.fst := by
  rw [h₂.names, h₁.names]
  exact Build.freeNames_eq hbody.symm (h₂.store ▸ hs₂.store) (h₁.store ▸ hs₁.store)

lemma Answered.relabels_iff (h₁ : Answered env₁ body₁ w₁ key₁ captured₁ w₁' values₁ raw₁ r₁)
    (h₂ : Answered env₂ body₂ w₂ key₂ captured₂ w₂' values₂ raw₂ r₂)
    (hformed₁ : ∀ t ∈ capturedValues w₁ env₁ body₁, t.Formed)
    (hformed₂ : ∀ t ∈ capturedValues w₂ env₂ body₂, t.Formed)
    (hnodup : (values₁.map Prod.fst).Nodup)
    (hnames : values₂.map Prod.fst = values₁.map Prod.fst) :
    Fields.code (Fields.ofList raw₁) = Fields.code (Fields.ofList raw₂) ↔
      ∃ σ, Relabels σ (capturedValues w₁ env₁ body₁) (capturedValues w₂ env₂ body₂) := by
  obtain ⟨-, hnames₁, hcodes₁⟩ := h₁.numbered hformed₁
  obtain ⟨-, hnames₂, hcodes₂⟩ := h₂.numbered hformed₂
  rw [Fields.code_ofList_iff (hnames₁ ▸ hnodup) (by rw [hnames₁, hnames₂, hnames]), hcodes₁,
    hcodes₂, ← Term.codeAll_eq_iff, Term.numbered_iff]

/-- A later request of the same body gets the same key exactly if its values are those of the
first one up to an injective change of tags. -/
theorem Answered.key_eq_iff (h₁ : Answered env₁ body₁ w₁ key₁ captured₁ w₁' values₁ raw₁ r₁)
    (hlater : w₁'.session.Grows w₂.session)
    (h₂ : Answered env₂ body₂ w₂ key₂ captured₂ w₂' values₂ raw₂ r₂)
    (hformed₁ : ∀ t ∈ capturedValues w₁ env₁ body₁, t.Formed)
    (hformed₂ : ∀ t ∈ capturedValues w₂ env₂ body₂, t.Formed)
    (hnodup : (values₁.map Prod.fst).Nodup) (hbody : body₁.symbol = body₂.symbol)
    (hnames : values₂.map Prod.fst = values₁.map Prod.fst) :
    key₁ = key₂ ↔
      ∃ σ, Relabels σ (capturedValues w₁ env₁ body₁) (capturedValues w₂ env₂ body₂) := by
  have hkeys : (w₁.session.keys.intern ⟨body₁, captured₁.envSymbol, captured₁.env⟩).2.Extends
      w₂.session.keys := h₁.keys ▸ hlater.keys
  have henvs : (r₁.envs.enter (Fields.ofList raw₁)).2.Extends r₂.envs := by
    have hgrows := (Rename.grows_inOrder (Rename.grows_fields values₂) _ _ _ h₂.renamed).envs
    rw [← h₁.envs]
    exact hlater.envs.trans hgrows
  rw [← Key.symbol_eq_iff, h₁.key, h₂.key, Interner.symbol_eq_iff hkeys, KeyData.beq_iff,
    h₁.envSymbol, h₂.envSymbol, EnvTable.symbol_eq_iff henvs,
    ← h₁.relabels_iff h₂ hformed₁ hformed₂ hnodup hnames]
  exact ⟨And.right, fun h => ⟨hbody, h⟩⟩

/-- Requests with one key, in whatever order they were made, are of one body and have the same
values entered. -/
lemma Answered.of_key_eq (h₁ : Answered env₁ body₁ w₁ key₁ captured₁ w₁' values₁ raw₁ r₁)
    (h₂ : Answered env₂ body₂ w₂ key₂ captured₂ w₂' values₂ raw₂ r₂) {s : Session}
    (hs₁ : w₁'.session.Grows s) (hs₂ : w₂'.session.Grows s) (hkey : key₁ = key₂) :
    body₁.symbol = body₂.symbol ∧
      Fields.code (Fields.ofList raw₁) = Fields.code (Fields.ofList raw₂) := by
  subst hkey
  exact (h₁.keyed.mono hs₁).unique (h₂.keyed.mono hs₂)

/-- The arguments of requests with one key have the same types. -/
theorem Answered.tys_eq (h₁ : Answered env₁ body₁ w₁ key₁ captured₁ w₁' values₁ raw₁ r₁)
    (h₂ : Answered env₂ body₂ w₂ key₂ captured₂ w₂' values₂ raw₂ r₂) {s : Session}
    (hs₁ : w₁'.session.Grows s) (hs₂ : w₂'.session.Grows s)
    (hformed₁ : ∀ t ∈ capturedValues w₁ env₁ body₁, t.Formed)
    (hformed₂ : ∀ t ∈ capturedValues w₂ env₂ body₂, t.Formed)
    (hnodup : (values₁.map Prod.fst).Nodup) (hkey : key₁ = key₂) :
    captured₁.args.map (fun v => v.ty.code) = captured₂.args.map (fun v => v.ty.code) := by
  obtain ⟨hbody, hcode⟩ := h₁.of_key_eq h₂ hs₁ hs₂ hkey
  have hnames := h₁.names_eq h₂ hs₁ hs₂ hbody
  obtain ⟨σ, hσ⟩ := (h₁.relabels_iff h₂ hformed₁ hformed₂ hnodup hnames).1 hcode
  have hcodes := congrArg (List.map Prod.snd) hσ.firsts
  rw [List.map_map, List.map_map, ← (h₁.args_eq hformed₁).1, ← (h₂.args_eq hformed₂).1] at hcodes
  exact hcodes

end Two

end Eval

end Residual
