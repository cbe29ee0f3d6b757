import Residual.Proofs.Eval.Computes

/-!
Operations on terms that have values.

Making a value run-time data does not change it, and reading a function, an element of a tuple or
the result of a primitive operation leaves code that computes it.
-/

namespace Residual

open Eval

variable {nodes : Interner ExprKind}

/-- Whether a map ascends is a matter of its names. -/
lemma Fields.Ascending.of_keys {α β : Type} {m : Fields α} {n : Fields β}
    (hn : Fields.Ascending n) (h : m.map Prod.fst = n.map Prod.fst) : Fields.Ascending m := by
  have hkeys : (m.map Prod.fst).Pairwise fun a b => a.index < b.index := by
    rw [h, List.pairwise_map]
    exact hn
  rw [List.pairwise_map] at hkeys
  exact hkeys

/-! ### Reading values -/

lemma Term.AllRead.getElem? {P : Var → Value → Prop} {ts : List Term} {vs : List Value}
    (h : Term.AllRead nodes P ts vs) {i : Nat} {v : Value} (hv : vs[i]? = some v) :
    ∃ t, ts[i]? = some t ∧ t.Reads nodes P v := by
  induction ts generalizing vs i with
  | nil =>
    cases vs with
    | nil => cases hv
    | cons v vs => exact h.elim
  | cons t ts ih =>
    cases vs with
    | nil => exact h.elim
    | cons v vs =>
      cases i with
      | zero =>
        cases hv
        exact ⟨t, rfl, h.1⟩
      | succ i => exact ih h.2 hv

lemma Term.AllRead.length {P : Var → Value → Prop} {ts : List Term} {vs : List Value}
    (h : Term.AllRead nodes P ts vs) : ts.length = vs.length := by
  induction ts generalizing vs with
  | nil =>
    cases vs with
    | nil => rfl
    | cons v vs => exact h.elim
  | cons t ts ih =>
    cases vs with
    | nil => exact h.elim
    | cons v vs => rw [List.length_cons, List.length_cons, ih h.2]

/-- A value that stands for a function is a map with its environment. -/
theorem Term.Stands.map {r : Term} {ρ : List (Name × Value)} {this : Option Name} {param : Name}
    {body : Outline} (h : r.Stands nodes (.function ρ this param body)) :
    ∃ env kind, r = .map env kind ∧ kind.Core nodes ∧ kind.Draws this param body ∧
      env.Reads nodes (fun _ _ => False) ρ := by
  cases r with
  | map env kind =>
    obtain ⟨ρ', this', param', body', heq, hkind, hdraws, henv⟩ := h
    cases heq
    exact ⟨env, kind, rfl, hkind, hdraws, henv⟩
  | lit l => cases h
  | tuple items =>
    obtain ⟨_, heq, _⟩ := h
    cases heq
  | var x => exact h.2.elim
  | _ => exact h.elim

lemma Term.Stands.tuple {r : Term} {vs : List Value} (h : r.Stands nodes (.tuple vs)) :
    ∃ rs, r = .tuple rs ∧ Term.AllRead nodes (fun _ _ => False) rs vs := by
  cases r with
  | tuple rs =>
    obtain ⟨_, heq, hall⟩ := h
    cases heq
    exact ⟨rs, rfl, hall⟩
  | lit l => cases h
  | map env kind =>
    obtain ⟨_, _, _, _, heq, _⟩ := h
    cases heq
  | var x => exact h.2.elim
  | _ => exact h.elim

lemma Term.Stands.lit {r : Term} {l : Literal} (h : r.Stands nodes (.lit l)) : r = .lit l := by
  cases r with
  | lit m =>
    cases h
    rfl
  | tuple items =>
    obtain ⟨_, heq, _⟩ := h
    cases heq
  | map env kind =>
    obtain ⟨_, _, _, _, heq, _⟩ := h
    cases heq
  | var x => exact h.2.elim
  | _ => exact h.elim

lemma Term.AllRead.lits {rs : List Term} {ls : List Literal}
    (h : Term.AllRead nodes (fun _ _ => False) rs (ls.map Value.lit)) : rs = ls.map Term.lit := by
  induction rs generalizing ls with
  | nil =>
    cases ls with
    | nil => rfl
    | cons l ls => exact h.elim
  | cons r rs ih =>
    cases ls with
    | nil => exact h.elim
    | cons l ls => rw [List.map_cons, Term.Stands.lit h.1, ih h.2]

/-- The length of a tuple is known from its type. -/
theorem Term.Means.length {σ : Bindings} {t : Term} {v : Value} (h : t.Means nodes σ v) :
    t.tupleLength? = v.length? := by
  obtain ⟨r, -, hr, hty⟩ := Term.Means.run t v h
  rw [Term.tupleLength?_eq, ← hty]
  cases v with
  | lit l => rw [hr.lit]; rfl
  | tuple vs =>
    obtain ⟨rs, rfl, hall⟩ := hr.tuple
    rw [Term.ty, Ty.tupleLength?, Term.length_tys, hall.length]
    rfl
  | function ρ this param body =>
    obtain ⟨env, kind, rfl, -⟩ := hr.map
    rfl

namespace Eval

variable {σ : Bindings} {w : World}

/-! ### Making values run-time data -/

mutual

lemma computes_toRuntime (t : Term) (v : Value) (σ : Bindings) (w : World)
    (h : t.Means nodes σ v) : ComputesTerm nodes σ w (toRuntime t) v := by
  match t with
  | .lit l =>
    cases h
    exact computes_bindResult (r := .lit l) rfl rfl
  | .var x => exact .pure h
  | .tuple items =>
    obtain ⟨vs, rfl, hall⟩ := h
    exact (computes_allToRuntime items vs σ w hall).bind fun rs τ w' _ hrs => .pure ⟨vs, rfl, hrs⟩
  | .map env kind =>
    obtain ⟨ρ, this, param, body, rfl, hkind, hdraws, henv⟩ := h
    refine (computes_envToRuntime env ρ σ w henv).bind fun m τ w' _ hm => .pure ?_
    exact ⟨ρ, this, param, body, rfl, hkind, hdraws, hm⟩
termination_by structural t

lemma computes_allToRuntime (ts : List Term) (vs : List Value) (σ : Bindings) (w : World)
    (h : Term.AllMean nodes σ ts vs) :
    Computes nodes σ w (allToRuntime ts) fun τ rs => Term.AllMean nodes τ rs vs := by
  match ts, vs with
  | [], [] => exact .pure trivial
  | t :: ts, v :: vs =>
    refine (computes_toRuntime t v σ w h.1).bind fun r τ w₁ hle hr => ?_
    have hrest : Term.AllMean nodes τ ts vs := Term.AllMean.mono hle.le h.2
    refine (computes_allToRuntime ts vs τ w₁ hrest).bind fun rs υ w₂ hle' hrs => .pure ?_
    exact ⟨Term.Means.mono hle'.le hr, hrs⟩
termination_by structural ts

lemma computes_envToRuntime (env : Env) (ρ : List (Name × Value)) (σ : Bindings) (w : World)
    (h : env.Means nodes σ ρ) :
    Computes nodes σ w (envToRuntime env) fun τ m => (Env.plain m).Means nodes τ ρ := by
  have hasc : Fields.Ascending (Term.envTys env) := Env.ascending_tys.2 (Env.reads_iff.1 h).1
  suffices hfields : Computes nodes σ w (envToRuntime env) fun τ m =>
      Env.FieldsRead nodes (τ.Holds nodes) (fun _ => true) m ρ by
    refine (hfields.and_typed (typed_envToRuntime env w)).imp fun τ m _ hm => ⟨?_, hm.1⟩
    rw [← hm.2] at hasc
    exact Env.ascending_tys.1 hasc
  match env with
  | .plain m => exact computes_fieldsToRuntime _ m ρ σ w h.2
  | .restricted m used => exact computes_fieldsToRuntime _ m ρ σ w h.2
  | .consed _ m => exact computes_fieldsToRuntime _ m ρ σ w h.2
termination_by structural env

lemma computes_fieldsToRuntime (keep : Name → Bool) (m : List (Name × Term))
    (ρ : List (Name × Value)) (σ : Bindings) (w : World)
    (h : Env.FieldsRead nodes (σ.Holds nodes) keep m ρ) :
    Computes nodes σ w (fieldsToRuntime keep m) fun τ rs =>
      Env.FieldsRead nodes (τ.Holds nodes) (fun _ => true) rs ρ := by
  match m with
  | [] => exact .pure trivial
  | (x, t) :: rest =>
    rw [fieldsToRuntime]
    split
    · rename_i hk
      obtain ⟨v, hv, ht⟩ := h.1 hk
      refine (computes_toRuntime t v σ w ht).bind fun r τ w₁ hle hr => ?_
      have hrest := Env.FieldsRead.imp (fun _ _ => Bindings.Holds.mono hle.le) keep rest ρ h.2
      refine (computes_fieldsToRuntime keep rest ρ τ w₁ hrest).bind fun rs υ w₂ hle' hrs => .pure ?_
      exact ⟨fun _ => ⟨v, hv, Term.Means.mono hle'.le hr⟩, hrs⟩
    · exact computes_fieldsToRuntime keep rest ρ σ w h.2
termination_by structural m

end

/-! ### Reading functions and tuples -/

lemma computes_readFields {x : Var} {env : Env} {kind : MapKind} {ρ : List (Name × Value)}
    (hx : σ.lookup x.tag = some (.map env kind)) (henv : env.Reads nodes (fun _ _ => False) ρ)
    {fields : List (Name × Ty)} (hfields : ∀ e ∈ fields, ∃ t, (e.1, t) ∈ env.visible ∧ t.ty = e.2) :
    Computes nodes σ w (readFields x fields) fun τ m => m.map Prod.fst = fields.map Prod.fst ∧
      Env.FieldsRead nodes (τ.Holds nodes) (fun _ => true) m ρ := by
  obtain ⟨hasc, hread⟩ := Env.reads_iff.1 henv
  induction fields generalizing σ w with
  | nil => exact .pure ⟨rfl, trivial⟩
  | cons e rest ih =>
    obtain ⟨y, ty⟩ := e
    obtain ⟨t, hmem, rfl⟩ := hfields (y, ty) (List.mem_cons_self ..)
    obtain ⟨v, hv, ht⟩ := hread (y, t) hmem
    have hfirst : ComputesTerm nodes σ w (readField x y t.ty) v := by
      unfold readField
      split
      · rename_i hunit
        exact .pure (Term.Stands.ofUnit t v ht hunit)
      · refine computes_emit (by simp) (by simp [Term.IsAtom]) ?_ ht
        have hget : Fields.get? env.visible y = some t := hasc.get?_of_mem hmem
        simp [Term.runAll, Term.run, hx, Op.compute, hget]
    refine hfirst.bind fun u τ w₁ hle hu => ?_
    refine (ih (hle.le _ _ hx) fun e he => hfields e (List.mem_cons_of_mem _ he)).bind
      fun m υ w₂ hle' hm => .pure ⟨?_, ?_⟩
    · rw [List.map_cons, List.map_cons, hm.1]
    · exact ⟨fun _ => ⟨v, hv, Term.Means.mono hle'.le hu⟩, hm.2⟩

/-- Anything that means a function is one, at the latest after reading it. -/
theorem computes_mapValue? {f : Term} {ρ : List (Name × Value)} {this : Option Name}
    {param : Name} {body : Outline} (hf : f.Means nodes σ (.function ρ this param body)) :
    Computes nodes σ w (mapValue? f) fun τ value => ∃ env kind, value = some (env, kind) ∧
      kind.Core nodes ∧ kind.Draws this param body ∧ env.Means nodes τ ρ := by
  cases f with
  | map env kind =>
    obtain ⟨ρ', this', param', body', heq, hkind, hdraws, henv⟩ := hf
    cases heq
    exact .pure ⟨env, kind, rfl, hkind, hdraws, henv⟩
  | var x =>
    obtain ⟨tag, ty⟩ := x
    obtain ⟨-, r, hlookup, hr, hty⟩ := hf
    obtain ⟨env, kind, rfl, hkind, hdraws, henv⟩ := hr.map
    cases hty
    have hfields : ∀ e ∈ Term.envTys env, ∃ t, (e.1, t) ∈ env.visible ∧ t.ty = e.2 := by
      rw [Term.envTys_eq_map]
      intro e he
      obtain ⟨d, hd, rfl⟩ := List.mem_map.1 he
      exact ⟨d.2, hd, rfl⟩
    refine (computes_readFields hlookup henv hfields).bind fun m τ w' _ hm => .pure ?_
    refine ⟨.plain m, kind, rfl, hkind, hdraws, ?_, hm.2⟩
    -- The names that were read are those of the type.
    have hasc : Fields.Ascending (Term.envTys env) := Env.ascending_tys.2 (Env.reads_iff.1 henv).1
    exact hasc.of_keys hm.1
  | lit l => cases hf
  | tuple items =>
    obtain ⟨_, heq, _⟩ := hf
    cases heq
  | _ => exact hf.elim

lemma computes_tupleIndex {t : Term} {vs : List Value} (ht : t.Means nodes σ (.tuple vs))
    {i : Nat} {v : Value} (hv : vs[i]? = some v) : ComputesTerm nodes σ w (tupleIndex t i) v := by
  cases t with
  | tuple items =>
    obtain ⟨_, heq, hall⟩ := ht
    cases heq
    obtain ⟨item, hitem, hmeans⟩ := Term.AllRead.getElem? hall hv
    simp only [tupleIndex, hitem]
    exact .pure hmeans
  | var x =>
    obtain ⟨tag, ty⟩ := x
    obtain ⟨-, r, hlookup, hr, hty⟩ := ht
    obtain ⟨rs, rfl, hall⟩ := hr.tuple
    cases hty
    obtain ⟨r, hget, hstands⟩ := hall.getElem? hv
    have hty : (Term.tys rs)[i]? = some r.ty := by
      rw [Term.tys_eq, List.getElem?_map, hget, Option.map_some]
    simp only [tupleIndex, hty]
    split
    · rename_i hunit
      exact .pure (Term.Stands.ofUnit r v hstands hunit)
    · refine computes_emit (by simp) (by simp [Term.IsAtom]) ?_ hstands
      have hlookup' : σ.lookup tag = some (.tuple rs) := hlookup
      simp [Term.runAll, Term.run, hlookup', Op.compute, hget]
  | lit l => cases ht
  | map env kind =>
    obtain ⟨_, _, _, _, heq, _⟩ := ht
    cases heq
  | _ => exact ht.elim

lemma computes_mapM {α : Type} {f : α → Eval Term} {l : List α} {vs : List Value}
    (hlength : l.length = vs.length)
    (h : ∀ (i : Nat) a v τ w', l[i]? = some a → vs[i]? = some v → σ.Le τ →
      ComputesTerm nodes τ w' (f a) v) :
    Computes nodes σ w (l.mapM f) fun τ ts => Term.AllMean nodes τ ts vs := by
  induction l generalizing vs σ w with
  | nil =>
    cases vs with
    | nil => exact .pure trivial
    | cons v vs => cases hlength
  | cons a l ih =>
    cases vs with
    | nil => cases hlength
    | cons v vs =>
      rw [List.mapM_cons]
      refine (h 0 a v σ w rfl rfl (.refl σ)).bind fun t τ w₁ hle ht => ?_
      refine (ih (Nat.succ.inj hlength) fun i a v υ w' ha hv hle' => ?_).bind
        fun ts υ w₂ hle' hts => .pure ⟨Term.Means.mono hle'.le ht, hts⟩
      exact h (i + 1) a v υ w' ha hv (hle.le.trans hle')

lemma computes_operand (op : Op) {ts : List Term} {v : Value} (h : Term.AllMean nodes σ ts [v]) :
    ComputesTerm nodes σ w (operand op ts) v := by
  match ts with
  | [] => exact h.elim
  | [t] => exact .pure h.1
  | _ :: _ :: _ => exact h.2.elim

lemma computes_tupleOp {op : TupleOp} {ts : List Term} {v result : Value}
    (hts : Term.AllMean nodes σ ts [v]) (h : op.value v = some result) :
    ComputesTerm nodes σ w (tupleOp op ts) result := by
  refine (computes_operand (.tuple op) hts).bind fun t τ w _ ht => ?_
  -- Only tuples have a length and elements.
  cases op with
  | lengthEq n =>
    cases h
    refine .pure ?_
    rw [ht.length]
    rfl
  | lengthGe n =>
    cases h
    refine .pure ?_
    rw [ht.length]
    rfl
  | index i =>
    cases v with
    | tuple vs => exact computes_tupleIndex ht h
    | lit l => cases h
    | function ρ this param body => cases h
  | slice n =>
    cases v with
    | tuple vs =>
      simp only [TupleOp.value] at h
      split at h
      · rename_i hn
        cases h
        have hlength : t.tupleLength? = some vs.length := ht.length
        simp only [hlength, if_pos hn]
        have hitems : Computes nodes τ w ((List.range (vs.length - n)).mapM fun k =>
            tupleIndex t (n + k)) fun τ ts => Term.AllMean nodes τ ts (vs.drop n) := by
          refine computes_mapM (by simp) fun i k v υ w' hk hv hle => ?_
          obtain ⟨hlt, rfl⟩ := List.getElem?_eq_some_iff.1 hk
          rw [List.getElem_range]
          rw [List.getElem?_drop] at hv
          exact computes_tupleIndex (ht.mono hle) hv
        exact hitems.bind fun ts υ w' _ hts => .pure ⟨_, rfl, hts⟩
      · cases h
    | lit l => cases h
    | function ρ this param body => cases h

/-! ### Primitive operations -/

lemma atom_of_means {t : Term} {l : Literal} (h : t.Means nodes σ (.lit l)) : t.IsAtom := by
  cases t with
  | lit _ => trivial
  | var _ => trivial
  | tuple items =>
    obtain ⟨_, heq, _⟩ := h
    cases heq
  | map env kind =>
    obtain ⟨_, _, _, _, heq, _⟩ := h
    cases heq
  | _ => exact h.elim

lemma atoms_of_allMean {ts : List Term} {ls : List Literal}
    (h : Term.AllMean nodes σ ts (ls.map Value.lit)) : ∀ t ∈ ts, t.IsAtom := by
  induction ts generalizing ls with
  | nil => exact fun t ht => absurd ht List.not_mem_nil
  | cons t ts ih =>
    cases ls with
    | nil => exact h.elim
    | cons l ls => exact List.forall_mem_cons.2 ⟨atom_of_means h.1, ih h.2⟩

lemma lits_of_allMean {ls ms : List Literal}
    (h : Term.AllMean nodes σ (ls.map Term.lit) (ms.map Value.lit)) : ls = ms := by
  induction ls generalizing ms with
  | nil =>
    cases ms with
    | nil => rfl
    | cons m ms => exact h.elim
  | cons l ls ih =>
    cases ms with
    | nil => exact h.elim
    | cons m ms =>
      have hfirst : Value.lit m = .lit l := h.1
      cases hfirst
      rw [ih h.2]

/-- Only literals are folded. -/
theorem lits_of_fold {op : PrimOp} {ts : List Term} {result : Prim} {l : Literal}
    (hop : op ≠ .convert) (h : Fold.fold op ts result = some l) :
    ∃ ls : List Literal, ts = ls.map Term.lit := by
  unfold Fold.fold at h
  split at h
  · exact ⟨[_, _], rfl⟩
  · exact ⟨[_, _], rfl⟩
  · exact ⟨[_, _], rfl⟩
  · exact ⟨[_], rfl⟩
  · exact absurd rfl hop
  · cases h

lemma computes_primOp {op : PrimOp} (hop : op ≠ .convert) {ts : List Term} {ls : List Literal}
    {l : Literal} (hts : Term.AllMean nodes σ ts (ls.map Value.lit))
    (hvalue : op.value (ls.map Term.lit) = some l) :
    ComputesTerm nodes σ w (primOp op ts) (.lit l) := by
  obtain ⟨rs, hrun, hrs, htys⟩ := Term.AllMean.run ts _ hts
  obtain rfl : rs = ls.map Term.lit := hrs.lits
  have htypes : (ts.map fun t => t.ty.prim?) = (ls.map Term.lit).map fun t => t.ty.prim? := by
    rw [Term.tys_eq, Term.tys_eq] at htys
    have := congrArg (List.map Ty.prim?) htys.symm
    simpa only [List.map_map, Function.comp_def] using this
  -- The type of the operation is that of its value.
  have hresult : Fold.resultType op (ts.map fun t => t.ty.prim?) = some l.type := by
    rw [htypes]
    exact PrimOp.type_value hop hvalue
  have hfold : Fold.fold op (ls.map Term.lit) l.type = some l := by
    obtain ⟨p, hp, hfold⟩ := Option.bind_eq_some_iff.1 hvalue
    rw [← htypes, hresult] at hp
    cases hp
    exact hfold
  unfold primOp
  refine .bind (P := fun τ p => τ = σ ∧ p = l.type) ?_ fun p τ w _ hp => ?_
  · unfold primType
    rw [hresult]
    split
    · exact .fail _
    · exact .pure ⟨rfl, rfl⟩
  · obtain ⟨rfl, rfl⟩ := hp
    refine .getSession ?_
    split
    · rename_i l' hl'
      have hfold' : Fold.fold op ts l.type = some l' := by
        split at hl'
        · exact hl'
        · cases hl'
      obtain ⟨ls', rfl⟩ := lits_of_fold hop hfold'
      rw [lits_of_allMean hts, hfold] at hfold'
      cases hfold'
      exact .pure rfl
    · refine computes_emit (r := .lit l) (by simp) (atoms_of_allMean hts) ?_ rfl
      rw [hrun, Option.bind_some, Op.compute, hvalue, Option.map_some]

end Eval

end Residual
