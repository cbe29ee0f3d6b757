import Residual.Proofs.Eval.CouplingLaws
import Residual.Proofs.Eval.Layouts
import Residual.Proofs.Eval.Merging
import Residual.Proofs.Eval.Requests
import Residual.Proofs.Typed.AkinPacking

/-!
Runs with and without sharing.

The first run uses results again, the second one computes each of them anew. So one variable of the
first run can stand for several of the second one, and the tags of both runs drift apart. The map of
the tags is kept with the runs: a tag that both runs draw goes to a tag of its own, and the tag of a
result that is used again goes to that of the shared variable. The map brings two variables of the
second run together only if they are merged by the statements of that run: each entry of the sharing
table is for an application whose result the statements of the second run bind as well.
-/

namespace Residual

/-! ### Operations that can be shared -/

lemma Ty.prim?_of_code {s t : Ty} (h : s.code = t.code) : s.prim? = t.prim? := by
  have hbeq := (Ty.beq_content_iff s t).2 h
  cases s <;> cases t <;> simp_all [Ty.beq, Ty.prim?]

lemma Ty.item?_of_code {s t : Ty} (h : s.code = t.code) (i : Nat) :
    (s.item? i).map Ty.code = (t.item? i).map Ty.code := by
  have hbeq := (Ty.beq_content_iff s t).2 h
  cases s <;> cases t <;> simp only [Ty.beq, Bool.false_eq_true] at hbeq <;> try rfl
  rename_i as bs
  have hcodes := Ty.codeAll_eq_iff.1 ((Ty.beqAll_content_iff as bs).1 hbeq)
  rw [Ty.item?, Ty.item?, ← List.getElem?_map, hcodes, List.getElem?_map]

lemma Ty.field?_of_code {s t : Ty} (h : s.code = t.code) (x : Name) :
    (s.field? x).map Ty.code = (t.field? x).map Ty.code := by
  have hfields : ∀ as bs : List (Name × Ty), Ty.beqFields .content as bs = true →
      (Fields.get? as x).map Ty.code = (Fields.get? bs x).map Ty.code := by
    intro as
    induction as with
    | nil => intro bs h; cases bs <;> simp_all [Ty.beqFields]
    | cons a as ih =>
      intro bs h
      cases bs with
      | nil => simp [Ty.beqFields] at h
      | cons b bs =>
        rw [Ty.beqFields, Bool.and_eq_true, Bool.and_eq_true, beq_iff_eq] at h
        rw [Fields.get?_cons a.1 a.2, Fields.get?_cons b.1 b.2, h.1.1]
        split
        · rw [Option.map_some, Option.map_some, (Ty.beq_content_iff _ _).1 h.1.2]
        · exact ih bs h.2
  have hbeq := (Ty.beq_content_iff s t).2 h
  cases s <;> cases t <;> simp only [Ty.beq, Bool.and_eq_true, Bool.false_eq_true] at hbeq <;>
    try rfl
  exact hfields _ _ hbeq.1

/-- The operands of an operation that can be shared determine the type of its result. -/
theorem Op.Obeys.code_eq {o : Op} (hpure : o.isPure = true) {as bs : List Term} {s t : Ty}
    (h : o.Obeys as s) (k : o.Obeys bs t) (hcode : Term.codeAll as = Term.codeAll bs) :
    s.code = t.code := by
  have hcodes := Term.codeAll_eq_iff.1 hcode
  -- Operands with one content have one type.
  have hsingle : ∀ {a b : Term}, as = [a] → bs = [b] → a.ty.code = b.ty.code := by
    rintro a b rfl rfl
    exact Term.tyCode_of_code a b (List.cons.inj hcodes).1
  match o with
  -- The result type is a function of the primitive types of the operands.
  | .prim op =>
    have hprims : as.map (fun a => a.ty.prim?) = bs.map fun b => b.ty.prim? := by
      have hlength : as.length = bs.length := by simpa using congrArg List.length hcodes
      refine List.ext_getElem (by simpa using hlength) fun i hi hi' => ?_
      rw [List.length_map] at hi hi'
      have hget := congrArg (·[i]?) hcodes
      simp only [List.getElem?_map, List.getElem?_eq_getElem hi, List.getElem?_eq_getElem hi',
        Option.map_some, Option.some.injEq] at hget
      rw [List.getElem_map, List.getElem_map]
      exact Ty.prim?_of_code (Term.tyCode_of_code _ _ hget)
    obtain ⟨hs, hsome⟩ := h
    obtain ⟨ht, -⟩ := k
    rw [hprims, ht] at hs
    cases s <;> cases t <;> simp_all [Ty.prim?]
  | .tuple (.index i) =>
    match as, bs, h, k with
    | [a], [b], h, k =>
      exact Option.some.inj (h.symm.trans ((Ty.item?_of_code (hsingle rfl rfl) i).trans k))
  | .module (.getField x) =>
    match as, bs, h, k with
    | [a], [b], h, k =>
      exact Option.some.inj (h.symm.trans ((Ty.field?_of_code (hsingle rfl rfl) x).trans k))
  | .array .length =>
    match as, bs, h, k with
    | [a], [b], h, k => rw [h.2, k.2]

/-- Kinds of maps that are made of code of one store are told apart by their codes. -/
theorem MapKind.apart_backed (st : Store) : MapKind.Apart (MapKind.Backed st) := by
  have hexpr : ∀ a b : Expr, a.Held st.exprs → b.Held st.exprs → (a == b) = true → a = b := by
    rintro ⟨i, a⟩ ⟨j, b⟩ ha hb h
    obtain rfl : i = j := beq_iff_eq.1 h
    have hnode : some a = some b := ha.mem.symm.trans hb.mem
    rw [Option.some.inj hnode]
  intro k l hk hl h
  cases k <;> cases l <;> first | rfl | cases h | skip
  · rename_i x a y b
    have h : (x == y && a == b) = true := h
    rw [Bool.and_eq_true, beq_iff_eq] at h
    rw [h.1, hexpr a b hk hl h.2]
  · rename_i f x a g y b
    have h : (f == g && x == y && a == b) = true := h
    rw [Bool.and_eq_true, Bool.and_eq_true, beq_iff_eq, beq_iff_eq] at h
    rw [h.1.1, h.1.2, hexpr a b hk hl h.2]

/-! ### Tags that are drawn -/

namespace Tagging

variable {σ τ : Tag → Tag} {known new : Set Tag} {held : MapKind → Prop}

/-- The tags from `n'` on stand for those from `n` on, as far as tags are drawn. -/
def shift (σ : Tag → Tag) (n n' : Tag) : Tag → Tag := fun m =>
  if n' ≤ m ∧ m < Tags.limit then n + (m - n') else σ m

lemma shift_known {m n n' : Tag} (h : m < n' ∨ Tags.limit ≤ m) : shift σ n n' m = σ m :=
  if_neg fun ⟨hle, hlt⟩ => h.elim (Nat.not_lt.2 hle) (Nat.not_le.2 hlt)

lemma shift_drawn {m n n' : Tag} (h : n' ≤ m) (hlt : m < Tags.limit) :
    shift σ n n' m = n + (m - n') :=
  if_pos ⟨h, hlt⟩

lemma of_le (h : ∀ n ∈ known, τ n = σ n) : Tagging.of σ known ≤ .of τ (known ∪ new) :=
  fun _ hf n hn => (hf n (.inl hn)).trans (h n hn)

lemma akin_of {v w : Var} (hknown : w.tag ∈ known) (htag : v.tag = σ w.tag)
    (hty : v.ty.Twin held w.ty) : v.Akin (.of σ known) held w :=
  ⟨fun _ hf => htag.trans (hf _ hknown).symm, hty⟩

/-- The variables that are drawn first. -/
lemma akin_shift {n n' : Tag} (hroom : n' < Tags.limit) {s t : Ty} (h : s.Twin held t) :
    (Var.mk n s).Akin (.of (shift σ n n') (known ∪ {m | n' ≤ m ∧ m < n' + 1})) held
      ⟨n', t⟩ := by
  refine akin_of (.inr ⟨Nat.le_refl _, Nat.lt_succ_self _⟩) ?_ h
  rw [shift_drawn (Nat.le_refl _) hroom, Nat.sub_self]
  rfl

end Tagging

/-! ### The coupling -/

/-- Keys for one body with environments of one content. -/
structure KeyData.Alike (t t' : EnvTable) (d e : KeyData) : Prop where
  body : d.body.symbol = e.body.symbol
  env : ∃ m n, t.Finds m d.envSymbol ∧ t'.Finds n e.envSymbol ∧ Fields.code m = Fields.code n

namespace KeyData.Alike

variable {t t' u u' : EnvTable} {a a' b b' : KeyData}

lemma mono (h : KeyData.Alike t t' a a') (ht : t.Extends u) (ht' : t'.Extends u') :
    KeyData.Alike u u' a a' := by
  obtain ⟨hbody, m, n, hm, hn, hcode⟩ := h
  exact ⟨hbody, m, n, hm.mono ht, hn.mono ht', hcode⟩

/-- Environments of one content are entered for a body. -/
theorem entered (body : Expr) {m n : Fields Term} (h : Fields.code m = Fields.code n) :
    KeyData.Alike (t.enter m).2 (t'.enter n).2 ⟨body, (t.enter m).1.symbol, (t.enter m).1.value⟩
      ⟨body, (t'.enter n).1.symbol, (t'.enter n).1.value⟩ :=
  ⟨rfl, m, n, EnvTable.finds_enter t m, EnvTable.finds_enter t' n, h⟩

/-- Such keys are told apart alike. -/
theorem beq (h : KeyData.Alike t t' a a') (k : KeyData.Alike t t' b b') :
    (a == b) = (a' == b') := by
  obtain ⟨hbody, m, m', hm, hm', hcode⟩ := h
  obtain ⟨hbody', n, n', hn, hn', hcode'⟩ := k
  rw [Bool.eq_iff_iff, KeyData.beq_iff, KeyData.beq_iff, hm.eq_iff hn, hm'.eq_iff hn', hbody,
    hbody', hcode, hcode']

end KeyData.Alike

/-- The second session does not share. The tables hold functions that are made of code of the store,
and the same bodies with environments of the same content under the same keys. -/
structure Session.Tables.Shares (st : Store) (t t' : Session.Tables) : Prop where
  plain : t'.settings.sharing = false
  envs : EnvTable.Twin (MapKind.Backed st) t.envs t.envs
  envs' : EnvTable.Twin (MapKind.Backed st) t'.envs t'.envs
  keys : List.Forall₂ (KeyData.Alike t.envs t'.envs) t.keys.entries t'.keys.entries

/-- The result of an application can be used again: it has the type that the operation gives, and
what the second run computes from akin operands is merged with a variable that is known to stand for
it. -/
structure Application.Again (N : Merging) (st : Store) (σ : Tag → Tag) (known : Set Tag)
    (next : Tag) (a : Application) (v : Var) : Prop where
  obeys : a.op.Obeys a.args v.ty
  formed : v.ty.Formed
  backed : ∀ k ∈ v.ty.kinds, k.Backed st
  drawn : v.tag < next
  result : ∃ bs m u, m ∈ known ∧ σ m = v.tag ∧
    List.Forall₂ (Term.Akin (.of σ known) (MapKind.Backed st)) a.args bs ∧
      N.results.get? (N.application a.op bs) = some u ∧ N.rep m = u.tag

/-- The tags that are known in the second scope stand for those that `σ` takes them to in the first
one. None of them is one that will be drawn. Those that stand for one tag are merged. -/
structure Scope.Output.Shares (N : Merging) (st : Store) (σ : Tag → Tag) (known : Set Tag)
    (o o' : Scope.Output) : Prop where
  drawn' : ∀ n ∈ known, n < o'.tags.next ∨ Tags.limit ≤ n
  drawn : ∀ n ∈ known, σ n < o.tags.next ∨ Tags.limit ≤ σ n
  merged : ∀ m ∈ known, ∀ n ∈ known, σ m = σ n → N.rep m = N.rep n
  room : o.tags.next ≤ Tags.limit
  room' : o'.tags.next ≤ Tags.limit
  table : ∀ e ∈ o.sharing.entries, e.1.Again N st σ known o.tags.next e.2

/-- The coupling of a run that uses results again with one that does not. -/
def Coupling.shared : Coupling where
  exact := False
  lenient := True
  admits := Stmt.apart
  Sessions := Session.Tables.Shares
  Scopes Γ st T o o' := ∃ σ known, T = .of σ known ∧
    Scope.Output.Shares (.of (Γ ++ o'.stmts)) st σ known o o'

section Again

variable {N N' : Merging} {st st' : Store} {σ τ : Tag → Tag} {known new : Set Tag}
  {next next' : Tag} {a : Application} {v : Var}

lemma Application.Again.mono (h : a.Again N st σ known next v) (hst : st.Grows st')
    (hnext : next ≤ next') : a.Again N st' σ known next' v := by
  obtain ⟨bs, m, u, hm, hv, hargs, hu⟩ := h.result
  have hheld := MapKind.Backed.mono hst
  exact ⟨h.obeys, h.formed, fun k hk => hheld k (h.backed k hk), Nat.lt_of_lt_of_le h.drawn hnext,
    bs, m, u, hm, hv, hargs.imp fun _ _ hab => hab.mono (le_refl _) hheld, hu⟩

lemma Application.Again.later (h : a.Again N st σ known next v) (hN : N.Later known N')
    (hτ : ∀ n ∈ known, τ n = σ n) : a.Again N' st τ (known ∪ new) next v := by
  obtain ⟨bs, m, u, hm, hv, hargs, hu, hrep⟩ := h.result
  exact ⟨h.obeys, h.formed, h.backed, h.drawn, bs, m, u, .inl hm, (hτ m hm).trans hv,
    hargs.imp fun _ _ hab => hab.mono (Tagging.of_le hτ) fun _ hk => hk,
    hN.get? (Term.Akin.known_all hargs) hu, (hN.rep m hm).trans hrep⟩

/-- What is computed from operands that are akin to equal ones is merged with the result. -/
theorem Application.Again.get? (h : a.Again N st σ known next v) {o : Op} {as bs : List Term}
    {held : MapKind → Prop} (hsame : (Application.mk o as == a) = true)
    (hargs : List.Forall₂ (Term.Akin (.of σ known) held) as bs)
    (hmerged : ∀ m ∈ known, ∀ n ∈ known, σ m = σ n → N.rep m = N.rep n) :
    ∃ m u, m ∈ known ∧ σ m = v.tag ∧ N.results.get? (N.application o bs) = some u ∧
      N.rep m = u.tag := by
  obtain ⟨bs', m, u, hm, hv, hargs', hu, hrep⟩ := h.result
  obtain ⟨hop, hcode⟩ := Application.beq_iff.1 hsame
  refine ⟨m, u, hm, hv, ?_, hrep⟩
  rw [← hu]
  have hbeq : (N.application o bs == N.application a.op bs') = true ↔ _ := Application.beq_iff
  refine Sharing.get?_congr (hbeq.2 ⟨hop, ?_⟩) _
  -- The operands have one code under the tags of the first run, so they do under the merged ones.
  refine Term.codeAll_retag_coarsen (σ := σ) ?_ fun x hx y hy =>
    hmerged _ (Term.Akin.known_all hargs x hx) _ (Term.Akin.known_all hargs' y hy)
  rw [← Term.Akin.codeAll hargs Tagging.mem_of, ← Term.Akin.codeAll hargs' Tagging.mem_of]
  exact hcode

end Again

namespace Scope.Output.Shares

variable {N N' : Merging} {st st' : Store} {σ τ : Tag → Tag} {known new : Set Tag}
  {o o' q q' : Scope.Output}

lemma mono (h : Shares N st σ known o o') (hst : st.Grows st') : Shares N st' σ known o o' :=
  { h with table := fun e he => (h.table e he).mono hst (Nat.le_refl _) }

/-- Tags are drawn. Those of `new` stand for tags that are drawn as well, or were before for
results that are used again. -/
theorem extend (h : Shares N st σ known o o') (hN : N.Later known N')
    (hsharing : q.sharing.entries = o.sharing.entries) (hnext : o.tags.next ≤ q.tags.next)
    (hnext' : o'.tags.next ≤ q'.tags.next) (hroom : q.tags.next ≤ Tags.limit)
    (hroom' : q'.tags.next ≤ Tags.limit) (hτ : ∀ n ∈ known, τ n = σ n)
    (hnew : ∀ n ∈ new, n < q'.tags.next ∧ τ n < q.tags.next)
    (hmerged : ∀ m ∈ new, ∀ n ∈ known ∪ new, τ m = τ n → N'.rep m = N'.rep n) :
    Shares N' st τ (known ∪ new) q q' where
  drawn' n hn := hn.elim (fun hn => (h.drawn' n hn).imp (Nat.lt_of_lt_of_le · hnext') id)
    fun hn => .inl (hnew n hn).1
  drawn n hn := hn.elim
    (fun hn => by
      rw [hτ n hn]
      exact (h.drawn n hn).imp (Nat.lt_of_lt_of_le · hnext) id)
    fun hn => .inl (hnew n hn).2
  merged m hm n hn heq := by
    rcases hm with hm | hm
    · rcases hn with hn | hn
      · rw [hτ m hm, hτ n hn] at heq
        rw [hN.rep m hm, hN.rep n hn]
        exact h.merged m hm n hn heq
      · exact (hmerged n hn m (.inl hm) heq.symm).symm
    · exact hmerged m hm n hn heq
  room := hroom
  room' := hroom'
  table e he := by
    rw [hsharing] at he
    exact ((h.table e he).mono (.refl st) hnext).later hN hτ

/-- A tag that is not drawn yet is not known. -/
lemma not_mem (h : Shares N st σ known o o') {n : Tag} (hn : o'.tags.next ≤ n)
    (hlt : n < Tags.limit) : n ∉ known := fun hmem =>
  (h.drawn' n hmem).elim (Nat.not_lt.2 hn) (Nat.not_le.2 hlt)

/-- As many variables are drawn on both sides. -/
theorem draw (h : Shares N st σ known o o') (hN : N.Later known N') {k : Nat}
    (hk : o.tags.next + k ≤ Tags.limit) (hk' : o'.tags.next + k ≤ Tags.limit)
    (stmts stmts' : List Stmt) (sharing' : Sharing) :
    Shares N' st (Tagging.shift σ o.tags.next o'.tags.next)
      (known ∪ {n | o'.tags.next ≤ n ∧ n < o'.tags.next + k})
      ⟨⟨o.tags.next + k⟩, stmts, o.sharing⟩ ⟨⟨o'.tags.next + k⟩, stmts', sharing'⟩ := by
  refine h.extend hN rfl (Nat.le_add_right ..) (Nat.le_add_right ..) hk hk'
    (fun n hn => Tagging.shift_known (h.drawn' n hn)) (fun n hn => ⟨hn.2, ?_⟩) ?_
  · rw [Tagging.shift_drawn hn.1 (Nat.lt_of_lt_of_le hn.2 hk')]
    exact Nat.add_lt_add_left (Nat.sub_lt_left_of_lt_add hn.1 hn.2) _
  · -- The new tags stand for new tags, each for one of its own.
    intro m hm n hn heq
    refine congrArg N'.rep ?_
    rw [Tagging.shift_drawn hm.1 (Nat.lt_of_lt_of_le hm.2 hk')] at heq
    rcases hn with hn | hn
    · -- What was known stands for a tag that was drawn before.
      rw [Tagging.shift_known (h.drawn' n hn)] at heq
      have hlt := Nat.lt_of_lt_of_le
        (Nat.add_lt_add_left (Nat.sub_lt_left_of_lt_add hm.1 hm.2) o.tags.next) hk
      rw [heq] at hlt
      refine (h.drawn n hn).elim (fun hold => ?_) fun hold => absurd hlt (Nat.not_lt.2 hold)
      exact absurd (heq ▸ Nat.le_add_right ..) (Nat.not_le.2 hold)
    · rw [Tagging.shift_drawn hn.1 (Nat.lt_of_lt_of_le hn.2 hk')] at heq
      rw [← Nat.sub_add_cancel hm.1, Nat.add_left_cancel heq, Nat.sub_add_cancel hn.1]

lemma le_shift (h : Shares N st σ known o o') {k : Nat} :
    Tagging.of σ known ≤ .of (Tagging.shift σ o.tags.next o'.tags.next)
      (known ∪ {n | o'.tags.next ≤ n ∧ n < o'.tags.next + k}) :=
  Tagging.of_le fun n hn => Tagging.shift_known (h.drawn' n hn)

/-- A result is used again on the left, and computed again on the right. There it is merged with
those that stand for it already. -/
theorem reuse (h : Shares N st σ known o o') (hN : N.Later known N')
    {e : Application × Var} (he : e ∈ o.sharing.entries) (hk' : o'.tags.next < Tags.limit)
    (hrep : ∃ m ∈ known, σ m = e.2.tag ∧ N'.rep o'.tags.next = N'.rep m)
    (stmts' : List Stmt) (sharing' : Sharing) :
    Shares N' st (Function.update σ o'.tags.next e.2.tag) (known ∪ {o'.tags.next}) o
      ⟨⟨o'.tags.next + 1⟩, stmts', sharing'⟩ := by
  have hne : ∀ n ∈ known, n ≠ o'.tags.next := by
    rintro n hn rfl
    exact h.not_mem (Nat.le_refl _) hk' hn
  have hτ : ∀ n ∈ known, Function.update σ o'.tags.next e.2.tag n = σ n :=
    fun n hn => Function.update_of_ne (hne n hn) ..
  obtain ⟨m₀, hm₀, hσ, hrep⟩ := hrep
  refine h.extend hN rfl (Nat.le_refl _) (Nat.le_succ _) h.room hk' hτ (fun n hn => ?_)
    fun m hm n hn heq => ?_
  · obtain rfl : n = o'.tags.next := hn
    rw [Function.update_self]
    exact ⟨Nat.lt_succ_self _, (h.table e he).drawn⟩
  · obtain rfl : m = o'.tags.next := hm
    rcases hn with hn | rfl
    · rw [Function.update_self, hτ n hn, ← hσ] at heq
      rw [hrep, hN.rep m₀ hm₀, hN.rep n hn, h.merged m₀ hm₀ n hn heq]
    · rfl

/-- A new result is entered. -/
theorem insert (h : Shares N st σ known o o') {a : Application} {v : Var}
    (ha : a.Again N st σ known o.tags.next v) :
    Shares N st σ known { o with sharing := o.sharing.insert a v } o' := by
  refine { h with table := fun e he => ?_ }
  have he : e ∈ (a, v) :: (o.sharing.erase a).entries := he
  rcases List.mem_cons.1 he with rfl | he
  · exact ha
  · exact h.table e (List.mem_filter.1 he).1

end Scope.Output.Shares

/-! ### Drawing variables and adding statements -/

namespace Coupling

open Eval

variable {Γ : List Stmt} {p : Runs} {α : Type} {m m' n n' : Eval α}

lemma Moves.of_eq {c : Coupling} {I O : Runs → Prop} {J : Runs → Runs → Prop}
    {R : Runs → α → α → Prop} (hm : exec m p.left = exec n p.left)
    (hm' : exec m' p.right = exec n' p.right) (h : c.Moves I O J p n n' R) :
    c.Moves I O J p m m' R := by
  intro hp
  rw [hm, hm']
  exact h hp

namespace Shared

/-- No tag is left in one of the runs. -/
theorem exhausted_left {I O : Runs → Prop} {J : Runs → Runs → Prop} {R : Runs → α → α → Prop}
    (h : (exec m p.left).1 = .error .tagsExhausted) : shared.Moves I O J p m m' R :=
  fun _ => .inl ⟨trivial, .inl h⟩

lemma exhausted_right {I O : Runs → Prop} {J : Runs → Runs → Prop} {R : Runs → α → α → Prop}
    (h : (exec m' p.right).1 = .error .tagsExhausted) : shared.Moves I O J p m m' R :=
  fun _ => .inl ⟨trivial, .inr ⟨.tagsExhausted, trivial, h⟩⟩

/-- What is known of two coupled runs: the map of the tags, and what is merged on the right. -/
lemma shares_of_linked (hp : shared.Linked Γ p) : ∃ σ known, p.tags = .of σ known ∧
    Scope.Output.Shares (.of (Γ ++ p.right.scope.stmts)) p.left.session.store σ known
      p.left.scope.output p.right.scope.output :=
  hp.scope.rest

section Draw

variable {σ : Tag → Tag} {known : Set Tag}

/-- New statements of the second run bind variables that are drawn. -/
lemma later_drawn {new' : List Stmt} (hshares : Scope.Output.Shares (.of (Γ ++ p.right.scope.stmts))
      p.left.session.store σ known p.left.scope.output p.right.scope.output)
    (hnew : ∀ s ∈ new', ∀ v t trace, s = .letIn v t trace →
      p.right.scope.tags.next ≤ v.tag ∧ v.tag < Tags.limit) :
    (Merging.of (Γ ++ p.right.scope.stmts)).Later known
      (.of (Γ ++ (p.right.scope.stmts ++ new'))) := by
  rw [← List.append_assoc]
  refine Merging.later_append fun s hs v t trace heq => ?_
  obtain ⟨hle, hlt⟩ := hnew s hs v t trace heq
  exact hshares.not_mem hle hlt

/-- Variables are drawn and statements added on both sides. -/
theorem linked_draw (hp : shared.Linked Γ p) {k : Nat} (hT : p.tags = .of σ known)
    (hshares : Scope.Output.Shares (.of (Γ ++ p.right.scope.stmts)) p.left.session.store σ known
      p.left.scope.output p.right.scope.output) (stmts new' : List Stmt) {w v : World}
    (hk : p.left.scope.tags.next + k ≤ Tags.limit)
    (hk' : p.right.scope.tags.next + k ≤ Tags.limit)
    (hw : w = { p.left with scope :=
      { p.left.scope with tags := ⟨p.left.scope.tags.next + k⟩, stmts } })
    (hv : v = { p.right with scope :=
      { p.right.scope with
        tags := ⟨p.right.scope.tags.next + k⟩, stmts := p.right.scope.stmts ++ new' } })
    (hnew : ∀ s ∈ new', ∀ v t trace, s = .letIn v t trace →
      p.right.scope.tags.next ≤ v.tag ∧ v.tag < Tags.limit) :
    let T := Tagging.of (Tagging.shift σ p.left.scope.tags.next p.right.scope.tags.next)
      (known ∪ {n | p.right.scope.tags.next ≤ n ∧ n < p.right.scope.tags.next + k})
    p.Grows ⟨T, w, v⟩ ∧ shared.Linked Γ ⟨T, w, v⟩ := by
  subst hw hv
  refine ⟨⟨?_, .refl _⟩, hp.session, { hp.scope with rest := ?_ }⟩
  · rw [hT]
    exact hshares.le_shift
  · have hlater := later_drawn hshares hnew
    exact ⟨_, _, rfl, hshares.draw hlater hk hk' stmts _ p.right.scope.sharing⟩

end Draw

lemma freshVar {s t : Ty} (h : p.Tys s t) :
    shared.Paired Γ p (freshVar s) (freshVar t) Runs.KinVar := by
  by_cases hroom : p.left.scope.tags.next < Tags.limit
  · by_cases hroom' : p.right.scope.tags.next < Tags.limit
    · refine Moves.given fun hp => ?_
      obtain ⟨σ, known, hT, hshares⟩ := shares_of_linked hp
      obtain ⟨hgrows, hlinked⟩ := linked_draw (k := 1) hp hT hshares p.left.scope.stmts [] hroom
        hroom' rfl (by rw [List.append_nil]) fun s hs => absurd hs List.not_mem_nil
      exact Paired.of_exec (exec_freshVar s hroom) (exec_freshVar t hroom') fun _ =>
        ⟨hgrows, hlinked, Tagging.akin_shift hroom' h⟩
    · exact exhausted_right (congrArg Prod.fst (exec_freshVar_of_full t (Nat.not_lt.1 hroom')))
  · exact exhausted_left (congrArg Prod.fst (exec_freshVar_of_full s (Nat.not_lt.1 hroom)))

lemma exec_pushStmt (mk : Trace → Stmt) (w : World) :
    exec (pushStmt mk) w = (.ok (), { w with scope :=
      { w.scope with stmts := w.scope.stmts ++ [mk w.scope.trace] } }) :=
  rfl

lemma pushState (a b : Term) :
    shared.Paired Γ p (pushStmt (.state a)) (pushStmt (.state b)) fun _ _ _ => True := by
  refine Moves.given fun hp => ?_
  obtain ⟨σ, known, hT, hshares⟩ := shares_of_linked hp
  obtain ⟨hgrows, hlinked⟩ := linked_draw (k := 0) hp hT hshares
    (p.left.scope.stmts ++ [.state a p.left.scope.trace]) [.state b p.right.scope.trace]
    hshares.room hshares.room' rfl rfl fun s hs v t trace heq => by
      rw [List.mem_singleton.1 hs] at heq
      cases heq
  exact Paired.of_exec (exec_pushStmt _ _) (exec_pushStmt _ _) fun _ => ⟨hgrows, hlinked, trivial⟩

/-- The variable that the second run binds code to is drawn. -/
lemma drawn_letIn (v : Var) (t : Term) (trace : Trace) (hroom : v.tag < Tags.limit) :
    ∀ s ∈ [Stmt.letIn v t trace], ∀ u t' trace', s = .letIn u t' trace' →
      v.tag ≤ u.tag ∧ u.tag < Tags.limit := by
  intro s hs u t' trace' heq
  rw [List.mem_singleton.1 hs] at heq
  cases heq
  exact ⟨Nat.le_refl _, hroom⟩

lemma bindResult (a b : Term) {s t : Ty} (h : p.Tys s t) :
    shared.Paired Γ p (bindResult a s) (bindResult b t) Runs.Kin := by
  cases hdata' : t.isUnit with
  | true =>
    have hdata : s.isUnit = true := h.isUnit.trans hdata'
    rw [Eval.bindResult, Eval.bindResult, if_pos hdata, if_pos hdata']
    exact Paired.bind (pushState a b) fun _ _ q hq _ => .pure (Term.akin_ofUnit (hq.tys h))
  | false =>
    have hdata : s.isUnit = false := h.isUnit.trans hdata'
    by_cases hroom : p.left.scope.tags.next < Tags.limit
    swap
    · have hfull := exec_bindResult_of_full hdata a (Nat.not_lt.1 hroom)
      exact exhausted_left (congrArg Prod.fst hfull)
    by_cases hroom' : p.right.scope.tags.next < Tags.limit
    swap
    · have hfull := exec_bindResult_of_full hdata' b (Nat.not_lt.1 hroom')
      exact exhausted_right (congrArg Prod.fst hfull)
    refine Moves.given fun hp => ?_
    obtain ⟨σ, known, hT, hshares⟩ := shares_of_linked hp
    obtain ⟨hgrows, hlinked⟩ := linked_draw (k := 1) hp hT hshares _ _ hroom hroom' rfl rfl
      (drawn_letIn ⟨p.right.scope.tags.next, t⟩ b p.right.scope.trace hroom')
    exact Paired.of_exec (exec_bindResult_of_data hdata a hroom)
      (exec_bindResult_of_data hdata' b hroom') fun _ =>
        ⟨hgrows, hlinked, Term.akin_var_iff.2 (Tagging.akin_shift hroom' h)⟩

lemma draws : shared.Draws where
  exact_tags h := h.elim
  freshVar h := freshVar h
  pushState _ := pushState _ _
  bindResult _ h := bindResult _ _ h

/-! ### Emission -/

section Emission

variable {o : Op} {as bs : List Term} {s t : Ty}

/-- Without sharing, the result of an operation is bound. -/
lemma exec_emit_plain {w : World}
    (h : (w.session.settings.sharing && o.isPure && !s.isUnit) = false) :
    exec (emit o as s) w = exec (Eval.bindResult (.op o as s) s) w := by
  rw [emit, exec_bind_of_ok (exec_getSession w), h, if_neg Bool.false_ne_true]

lemma exec_emit_hit {w : World} {v : Var}
    (h : (w.session.settings.sharing && o.isPure && !s.isUnit) = true)
    (hfound : w.scope.sharing.get? ⟨o, as⟩ = some v) :
    exec (emit o as s) w = (.ok (.var v),
      w.setStats { w.session.stats with sharingHits := w.session.stats.sharingHits + 1 }) := by
  rw [emit, exec_bind_of_ok (exec_getSession w), h, if_pos rfl,
    exec_bind_of_ok (exec_getScope w), hfound]
  rfl

lemma exec_emit_new {w : World}
    (h : (w.session.settings.sharing && o.isPure && !s.isUnit) = true)
    (hnew : w.scope.sharing.get? ⟨o, as⟩ = none) (hroom : w.scope.tags.next < Tags.limit) :
    exec (emit o as s) w = (.ok (.var ⟨w.scope.tags.next, s⟩),
      (w.emits [.letIn ⟨w.scope.tags.next, s⟩ (.op o as s) w.scope.trace]).share ⟨o, as⟩
        ⟨w.scope.tags.next, s⟩) := by
  rw [emit, exec_bind_of_ok (exec_getSession w), h, if_pos rfl,
    exec_bind_of_ok (exec_getScope w), hnew]
  dsimp only
  rw [exec_bind_of_ok (exec_freshVar s hroom)]
  rfl

lemma exec_emit_full {w : World}
    (h : (w.session.settings.sharing && o.isPure && !s.isUnit) = true)
    (hnew : w.scope.sharing.get? ⟨o, as⟩ = none) (hfull : Tags.limit ≤ w.scope.tags.next) :
    exec (emit o as s) w = (.error .tagsExhausted, w) := by
  rw [emit, exec_bind_of_ok (exec_getSession w), h, if_pos rfl,
    exec_bind_of_ok (exec_getScope w), hnew]
  dsimp only
  rw [exec_bind_of_error (exec_freshVar_of_full s hfull)]

/-- The type of a shared result is the one that is asked for. -/
lemma tys_of_shared {N : Merging} {st : Store} {σ : Tag → Tag} {known : Set Tag} {next : Tag}
    {a : Application} {v : Var} (h : a.Again N st σ known next v) (hpure : o.isPure = true)
    (hsame : (Application.mk o as == a) = true) (hobeys : o.Obeys as s) (hformed : s.Formed)
    (hty : s.Twin (MapKind.Backed st) t) : v.ty.Twin (MapKind.Backed st) t := by
  obtain ⟨op, args⟩ := a
  obtain ⟨hop, hargs⟩ := Application.beq_iff.1 hsame
  obtain rfl : o = op := hop
  have hcode : v.ty.code = s.code := Op.Obeys.code_eq hpure h.obeys hobeys hargs.symm
  have htwin := Ty.twin_of_code (MapKind.apart_backed st) h.formed hformed h.backed hty.held hcode
  exact ⟨htwin.same.trans hty.same, h.backed⟩

/-- What the second run computes again is merged with what stands for the shared result. -/
lemma rep_of_shared {N : Merging} {st : Store} {σ : Tag → Tag} {known : Set Tag} {next : Tag}
    {a : Application} {v : Var} (h : a.Again N st σ known next v) {held : MapKind → Prop}
    (hpure : o.isPure = true) (hsame : (Application.mk o as == a) = true)
    (hargs : List.Forall₂ (Term.Akin (.of σ known) held) as bs)
    (hmerged : ∀ m ∈ known, ∀ n ∈ known, σ m = σ n → N.rep m = N.rep n) {u : Var}
    (hu : u.tag ∉ known) (trace : Trace) :
    ∃ m ∈ known, σ m = v.tag ∧ (N.next (.letIn u (.op o bs t) trace)).rep u.tag =
      (N.next (.letIn u (.op o bs t) trace)).rep m := by
  obtain ⟨m, u₀, hm, hv, hget, hrep⟩ := h.get? hsame hargs hmerged
  obtain ⟨u₁, hrep₁, -, hfound⟩ := Merging.exists_next hpure N u bs t trace
  obtain rfl := hfound u₀ hget
  have hlater : N.Later known (N.next (.letIn u (.op o bs t) trace)) :=
    Merging.later_next fun _ _ _ heq => by cases heq; exact hu
  exact ⟨m, hm, hv, by rw [hrep₁, hlater.rep m hm, hrep]⟩

/-- A new result on the left is computed anew on the right, and can be used again. -/
lemma again_new {N : Merging} {st : Store} {σ τ : Tag → Tag} {known : Set Tag} (new : Set Tag)
    {next : Tag} (hpure : o.isPure = true) (hobeys : o.Obeys as s) (hformed : s.Formed)
    (hk : ∀ k ∈ s.kinds, k.Backed st)
    (hargs : List.Forall₂ (Term.Akin (.of σ known) (MapKind.Backed st)) as bs)
    (hτ : ∀ n ∈ known, τ n = σ n) {u : Var} (hu : u.tag ∉ known) (hnew : u.tag ∈ new)
    (trace : Trace) {v : Var} (hv : v.ty = s) (hlt : v.tag < next) (htag : τ u.tag = v.tag) :
    (Application.mk o as).Again (N.next (.letIn u (.op o bs t) trace)) st τ
      (known ∪ new) next v := by
  subst hv
  obtain ⟨u₁, hrep₁, hget, -⟩ := Merging.exists_next hpure N u bs t trace
  have hlater : N.Later known (N.next (.letIn u (.op o bs t) trace)) :=
    Merging.later_next fun _ _ _ heq => by cases heq; exact hu
  refine ⟨hobeys, hformed, hk, hlt, bs, u.tag, u₁, .inr hnew, htag,
    hargs.imp fun _ _ hab => hab.mono (Tagging.of_le hτ) fun _ hk => hk, ?_, hrep₁⟩
  rw [Sharing.get?_congr (hlater.application (Term.Akin.known_all hargs) o)]
  exact hget

lemma emit (hargs : List.Forall₂ p.Kin as bs) (hty : p.Tys s t)
    (hpure : o.isPure = true → o.Obeys as s ∧ s.Formed) :
    shared.Paired Γ p (emit o as s) (emit o bs t) Runs.Kin := by
  refine Moves.given fun hp => ?_
  have hplain : (p.right.session.settings.sharing && o.isPure && !t.isUnit) = false := by
    have hoff : p.right.session.settings.sharing = false := hp.session.rest.plain
    rw [hoff, Bool.false_and, Bool.false_and]
  cases hshare : p.left.session.settings.sharing && o.isPure && !s.isUnit with
  | false =>
    -- The result cannot be shared: it is bound on both sides.
    exact Moves.of_eq (exec_emit_plain hshare) (exec_emit_plain hplain) (bindResult _ _ hty)
  | true =>
    obtain ⟨⟨-, ho⟩, hdata⟩ : (p.left.session.settings.sharing = true ∧ o.isPure = true) ∧
      s.isUnit = false := by simpa using hshare
    have hdata' : t.isUnit = false := hty.isUnit.symm.trans hdata
    obtain ⟨hobeys, hformed⟩ := hpure ho
    by_cases hroom' : p.right.scope.tags.next < Tags.limit
    swap
    · have hfull := exec_bindResult_of_full hdata' (.op o bs t) (Nat.not_lt.1 hroom')
      exact exhausted_right (congrArg Prod.fst ((exec_emit_plain hplain).trans hfull))
    have hemit : exec (Eval.emit o bs t) p.right = _ := exec_emit_plain hplain
    have hright := hemit.trans (exec_bindResult_of_data hdata' (.op o bs t) hroom')
    obtain ⟨σ, known, hT, hshares⟩ := shares_of_linked hp
    have hkin : List.Forall₂ (Term.Akin (.of σ known) p.held) as bs := by
      rw [← hT]
      exact hargs
    have hnew := hshares.not_mem (Nat.le_refl _) hroom'
    have hlater := later_drawn hshares (drawn_letIn ⟨p.right.scope.tags.next, t⟩
      (.op o bs t) p.right.scope.trace hroom')
    have hnext : ∀ s, Merging.of (Γ ++ (p.right.scope.stmts ++ [s])) =
        (Merging.of (Γ ++ p.right.scope.stmts)).next s := fun s => by
      rw [← List.append_assoc, Merging.of_concat]
    cases hfound : p.left.scope.sharing.get? ⟨o, as⟩ with
    | some v =>
      -- The result is used again on the left.
      obtain ⟨e, he, hsame, rfl⟩ := Sharing.mem_of_lookup hfound
      have hagain := hshares.table e he
      have hmem : p.right.scope.tags.next ∈ known ∪ {p.right.scope.tags.next} := .inr rfl
      have hrep := rep_of_shared (t := t) hagain ho hsame hkin hshares.merged
        (u := ⟨p.right.scope.tags.next, t⟩) hnew p.right.scope.trace
      rw [← hnext] at hrep
      refine Paired.of_exec (q := ⟨.of (Function.update σ p.right.scope.tags.next e.2.tag)
        (known ∪ {p.right.scope.tags.next}), _, _⟩) (exec_emit_hit hshare hfound) hright
        fun _ => ⟨⟨?_, .refl _⟩, ⟨?_, ?_⟩, ?_⟩
      · rw [hT]
        exact Tagging.of_le fun n hn => Function.update_of_ne (ne_of_mem_of_not_mem hn hnew) ..
      · exact { hp.session with
          rest := ⟨hp.session.rest.plain, hp.session.rest.envs, hp.session.rest.envs',
            hp.session.rest.keys⟩ }
      · exact { hp.scope with rest := ⟨_, _, rfl, hshares.reuse hlater he hroom' hrep _ _⟩ }
      · refine Term.akin_var_iff.2 (Tagging.akin_of hmem ?_ ?_)
        · rw [Function.update_self]
        · exact tys_of_shared hagain ho hsame hobeys hformed hty
    | none =>
      -- The result is new on both sides, and entered on the left.
      by_cases hroom : p.left.scope.tags.next < Tags.limit
      swap
      · exact exhausted_left (congrArg Prod.fst (exec_emit_full hshare hfound (Nat.not_lt.1 hroom)))
      have hle := hshares.le_shift (k := 1)
      rw [← hT] at hle
      refine Paired.of_exec (q := ⟨_, _, _⟩) (exec_emit_new hshare hfound hroom) hright
        fun _ => ⟨⟨hle, .refl _⟩, ⟨hp.session, ?_⟩, ?_⟩
      · have hdrawn := hshares.draw hlater (k := 1) hroom hroom'
          (p.left.scope.stmts ++
            [.letIn ⟨p.left.scope.tags.next, s⟩ (.op o as s) p.left.scope.trace])
          (p.right.scope.stmts ++
            [.letIn ⟨p.right.scope.tags.next, t⟩ (.op o bs t) p.right.scope.trace])
          p.right.scope.sharing
        refine { hp.scope with rest := ⟨_, _, rfl, hdrawn.insert ?_⟩ }
        rw [hnext]
        refine again_new {n | p.right.scope.tags.next ≤ n ∧ n < p.right.scope.tags.next + 1} ho
          hobeys hformed hty.held hkin (fun n hn => Tagging.shift_known (hshares.drawn' n hn))
          (u := ⟨p.right.scope.tags.next, t⟩) hnew ⟨Nat.le_refl _, Nat.lt_succ_self _⟩ _ rfl
          (Nat.lt_succ_self _) ((Tagging.shift_drawn (Nat.le_refl _) hroom').trans ?_)
        rw [Nat.sub_self]
        rfl
      · exact Term.akin_var_iff.2 (Tagging.akin_shift hroom' hty)

end Emission

end Shared

end Coupling

end Residual
