import Residual.Proofs.Eval.Table
import Residual.Proofs.Typed.Content

/-!
What evaluation leaves as it was.

Statements are added at the end, tags are taken from the supply, and results that can be shared
are entered beside those that are there. The environment, the trace, the depth of branches, the
settings and the owner of the scope stay. A branch of a split leaves nothing behind but used tags.
-/

namespace Residual

namespace Application

lemma beq_iff {a b : Application} :
    (a == b) = true ↔ a.op = b.op ∧ Term.codeAll a.args = Term.codeAll b.args := by
  change (a.op == b.op && (Term.quickAll .content a.args b.args).1) = true ↔ _
  rw [(Term.quickAll .content a.args b.args).2, Bool.and_eq_true, beq_iff_eq,
    Term.beqAll_content_iff]

instance : EquivBEq Application where
  rfl := beq_iff.2 ⟨rfl, rfl⟩
  symm h := beq_iff.2 ⟨(beq_iff.1 h).1.symm, (beq_iff.1 h).2.symm⟩
  trans h k := beq_iff.2 ⟨(beq_iff.1 h).1.trans (beq_iff.1 k).1,
    (beq_iff.1 h).2.trans (beq_iff.1 k).2⟩

end Application

namespace Sharing

lemma mem_of_lookup {l : List (Application × Var)} {a : Application} {v : Var}
    (h : l.lookup a = some v) : ∃ e ∈ l, (a == e.1) = true ∧ e.2 = v := by
  induction l with
  | nil => cases h
  | cons d rest ih =>
    rw [List.lookup_cons] at h
    split at h
    · rename_i heq
      exact ⟨d, List.mem_cons_self .., heq, Option.some.inj h⟩
    · obtain ⟨e, he, hae⟩ := ih h
      exact ⟨e, List.mem_cons_of_mem _ he, hae⟩

lemma lookup_eq_none {l : List (Application × Var)} {a : Application} (h : l.lookup a = none) :
    ∀ e ∈ l, (a == e.1) = false := by
  induction l with
  | nil => exact fun e he => absurd he List.not_mem_nil
  | cons d rest ih =>
    rw [List.lookup_cons] at h
    split at h
    · cases h
    · rename_i hne
      exact List.forall_mem_cons.2 ⟨hne, ih h⟩

/-- More results were entered, in the innermost scope, and none that was there before. -/
def Extends (s s' : Sharing) : Prop :=
  ∃ added : List (Application × Var), s'.entries = added ++ s.entries ∧
    (∀ d ∈ added, ∀ e ∈ s.entries, (d.1 == e.1) = false) ∧
    s'.scopes = match s.scopes with
      | [] => []
      | scope :: outer => (added.map Prod.fst ++ scope) :: outer

lemma Extends.refl (s : Sharing) : s.Extends s := by
  refine ⟨[], rfl, fun d hd => absurd hd List.not_mem_nil, ?_⟩
  cases s.scopes <;> rfl

lemma Extends.trans {s₁ s₂ s₃ : Sharing} (h : s₁.Extends s₂) (k : s₂.Extends s₃) :
    s₁.Extends s₃ := by
  obtain ⟨as, has, hnew, hscopes⟩ := h
  obtain ⟨bs, hbs, hnew', hscopes'⟩ := k
  refine ⟨bs ++ as, by rw [hbs, has, List.append_assoc], fun d hd e he => ?_, ?_⟩
  · rcases List.mem_append.1 hd with hd | hd
    · exact hnew' d hd e (by rw [has]; exact List.mem_append_right _ he)
    · exact hnew d hd e he
  · rw [hscopes', hscopes]
    cases s₁.scopes with
    | nil => rfl
    | cons scope outer => simp

lemma extends_insert {s : Sharing} {a : Application} (h : s.get? a = none) (v : Var) :
    s.Extends (s.insert a v) := by
  have hnew := lookup_eq_none h
  have herase : (s.erase a).entries = s.entries :=
    List.filter_eq_self.2 fun e he => by rw [hnew e he]; rfl
  refine ⟨[(a, v)], ?_, fun d hd e he => ?_, ?_⟩
  · rw [insert, herase]
    rfl
  · rw [List.mem_singleton.1 hd]
    exact hnew e he
  · rw [insert]
    cases s.scopes <;> rfl

/-- A result that could be shared still can, in the same variable. -/
theorem Extends.get? {s s' : Sharing} (h : s.Extends s') {a : Application} {v : Var}
    (ha : s.get? a = some v) : s'.get? a = some v := by
  obtain ⟨added, hentries, hnew, -⟩ := h
  obtain ⟨e, he, hae, -⟩ := mem_of_lookup ha
  -- No new entry is for `a`, as no new entry is for what the entry of `a` is for.
  have hnone : added.lookup a = none := by
    refine Option.eq_none_iff_forall_ne_some.2 fun w hw => ?_
    obtain ⟨d, hd, had, -⟩ := mem_of_lookup hw
    have hde : (d.1 == e.1) = true := BEq.trans (BEq.symm had) hae
    rw [hnew d hd e he] at hde
    cases hde
  rw [Sharing.get?, hentries, List.lookup_append, hnone, Option.none_or]
  exact ha

lemma entries_foldl_erase (as : List Application) (s : Sharing) :
    (as.foldl erase s).entries = s.entries.filter fun e => as.all fun a => !(a == e.1) := by
  induction as generalizing s with
  | nil => exact (List.filter_eq_self.2 fun _ _ => rfl).symm
  | cons a rest ih =>
    rw [List.foldl_cons, ih, erase, List.filter_filter]
    refine List.filter_congr fun e _ => ?_
    rw [List.all_cons, Bool.and_comm]

lemma scopes_foldl_erase (as : List Application) (s : Sharing) :
    (as.foldl erase s).scopes = s.scopes := by
  induction as generalizing s with
  | nil => rfl
  | cons a rest ih => rw [List.foldl_cons, ih, erase]

/-- What was entered in a scope is forgotten with the scope. -/
theorem Extends.pop {s s' : Sharing} (h : s.push.Extends s') : s'.pop = s := by
  obtain ⟨added, hentries, hnew, hscopes⟩ := h
  have hold : s'.entries = added ++ s.entries := hentries
  have hscope : s'.scopes = added.map Prod.fst :: s.scopes := by
    rw [hscopes]
    simp [push]
  -- All that was added goes, and nothing that was there is equal to something added.
  have hkept : (added ++ s.entries).filter
      (fun e => (added.map Prod.fst).all fun a => !(a == e.1)) = s.entries := by
    rw [List.filter_append]
    have hgone : added.filter (fun e => (added.map Prod.fst).all fun a => !(a == e.1)) = [] := by
      refine List.filter_eq_nil_iff.2 fun e he hall => ?_
      have := List.all_eq_true.1 hall e.1 (List.mem_map_of_mem he)
      rw [BEq.rfl] at this
      cases this
    have hstay : s.entries.filter (fun e => (added.map Prod.fst).all fun a => !(a == e.1)) =
        s.entries := by
      refine List.filter_eq_self.2 fun e he => List.all_eq_true.2 fun a ha => ?_
      obtain ⟨d, hd, rfl⟩ := List.mem_map.1 ha
      rw [hnew d hd e he]
      rfl
    rw [hgone, hstay, List.nil_append]
  have hpop : s'.pop = (added.map Prod.fst).foldl erase ⟨s'.entries, s.scopes⟩ := by
    rw [Sharing.pop, hscope]
  have hentries' := entries_foldl_erase (added.map Prod.fst) ⟨s'.entries, s.scopes⟩
  have hscopes' := scopes_foldl_erase (added.map Prod.fst) ⟨s'.entries, s.scopes⟩
  rw [← hpop] at hentries' hscopes'
  have hentries'' : s'.pop.entries = s.entries := by rw [hentries', hold, hkept]
  cases hs : s'.pop
  rw [hs] at hentries'' hscopes'
  cases s
  cases hentries''
  cases hscopes'
  rfl

end Sharing

/-- What a step leaves of the world it started in. -/
structure World.Framed (w w' : World) : Prop where
  later : w.Later w'
  settings : w'.session.settings = w.session.settings
  env : w'.scope.env = w.scope.env
  trace : w'.scope.trace = w.scope.trace
  dynamicDepth : w'.scope.dynamicDepth = w.scope.dynamicDepth
  tags : w.scope.tags.next ≤ w'.scope.tags.next
  stmts : w.scope.stmts <+: w'.scope.stmts
  sharing : w.scope.sharing.Extends w'.scope.sharing

namespace World.Framed

variable {w w' w₁ w₂ w₃ : World}

lemma refl (w : World) : w.Framed w :=
  ⟨.refl w, rfl, rfl, rfl, rfl, Nat.le_refl _, List.prefix_refl _, .refl _⟩

lemma trans (h : w₁.Framed w₂) (k : w₂.Framed w₃) : w₁.Framed w₃ :=
  ⟨h.later.trans k.later, k.settings.trans h.settings, k.env.trans h.env,
    k.trace.trans h.trace, k.dynamicDepth.trans h.dynamicDepth, Nat.le_trans h.tags k.tags,
      h.stmts.trans k.stmts, h.sharing.trans k.sharing⟩

/-- A step whose scope is given up. -/
theorem of_scope (hlater : w.Later w') (hsettings : w'.session.settings = w.session.settings)
    (hscope : w'.scope = w.scope) : w.Framed w' := by
  refine ⟨hlater, hsettings, congrArg Scope.env hscope, congrArg Scope.trace hscope,
    congrArg Scope.dynamicDepth hscope, Nat.le_of_eq ?_, ?_, ?_⟩
  · exact congrArg (fun s => s.tags.next) hscope.symm
  · simp only [hscope, List.prefix_rfl]
  · exact hscope.symm ▸ .refl _

lemma share {a : Application} (h : w.scope.sharing.get? a = none) (v : Var) :
    w.Framed (w.share a v) :=
  ⟨⟨.refl _, rfl⟩, rfl, rfl, rfl, rfl, Nat.le_refl _, List.prefix_refl _,
    Sharing.extends_insert h v⟩

lemma leaveBranch (h : w.enterBranch.Framed w') : w.Framed (w.leaveBranch w') := by
  refine ⟨⟨h.later.grows, h.later.owner⟩, h.settings, rfl, rfl,
    congrArg (· - 1) h.dynamicDepth, h.tags, List.prefix_refl _, ?_⟩
  have hpop : w'.scope.sharing.pop = w.scope.sharing := h.sharing.pop
  rw [World.leaveBranch, Scope.leaveBranch, hpop]
  exact .refl _

/-- A branch leaves the shared results as they were. -/
theorem sharing_leaveBranch (h : w.enterBranch.Framed w') :
    (w.leaveBranch w').scope.sharing = w.scope.sharing :=
  h.sharing.pop

end World.Framed

/-- Evaluation keeps to its frame. -/
def Discipline.frame : Discipline where
  Index := Unit
  strict := False
  Inv _ _ := True
  Le := World.Framed
  Known _ _ _ _ := True
  inner _ _ := ()
  within i _ := i
  le_refl := .refl
  le_trans := .trans
  le_grows h := h.later.grows
  le_owner h := h.later.owner
  known_le _ _ _ := trivial
  known_pending _ _ _ _ := trivial
  known_done _ _ _ _ := trivial
  known_stmts h := h.elim
  quiet _ hq := ⟨trivial, .of_scope ⟨hq.grows, rfl⟩ (by rw [hq.rest]) rfl⟩
  tags _ ht := ⟨trivial, ⟨.refl _, rfl⟩, rfl, rfl, rfl, rfl, ht, List.prefix_refl _, .refl _⟩
  push _ _ := ⟨trivial, ⟨.refl _, rfl⟩, rfl, rfl, rfl, rfl, Nat.le_refl _, List.prefix_append ..,
    .refl _⟩
  share _ hnone _ _ := ⟨trivial, .share hnone _⟩
  setEnv _ _ := trivial
  resetEnv _ h := ⟨⟨h.later.grows, h.later.owner⟩, h.settings, rfl, h.trace, h.dynamicDepth,
    h.tags, h.stmts, h.sharing⟩
  setTrace _ _ := trivial
  resetTrace _ h := ⟨⟨h.later.grows, h.later.owner⟩, h.settings, h.env, rfl, h.dynamicDepth,
    h.tags, h.stmts, h.sharing⟩
  enterBranch _ := trivial
  leaveBranch _ _ hle := ⟨trivial, hle.leaveBranch⟩
  guess _ _ _ _ := ⟨trivial, .of_scope ⟨⟨.refl _, .refl _, .refl _⟩, rfl⟩ rfl rfl⟩
  retract _ _ _ _ hle _ := ⟨trivial,
    hle.later.of_tables ⟨rfl, rfl, rfl⟩ ⟨rfl, rfl, rfl⟩ hle.later.owner, hle.settings, hle.env,
    hle.trace, hle.dynamicDepth, hle.tags, hle.stmts, hle.sharing⟩
  start _ _ _ _ := trivial
  complete _ _ _ _ hle _ _ _ := ⟨trivial,
    .of_scope (hle.later.of_tables ⟨rfl, rfl, rfl⟩ ⟨rfl, rfl, rfl⟩ rfl) hle.settings rfl,
    fun _ _ _ => trivial⟩
  abandon _ _ _ hle := ⟨trivial,
    .of_scope (hle.later.of_tables ⟨rfl, rfl, rfl⟩ ⟨rfl, rfl, rfl⟩ rfl) hle.settings rfl⟩

instance : Discipline.frame.Unguarded :=
  ⟨fun _ _ => trivial, fun _ _ _ => trivial, fun h => h⟩

namespace Eval

lemma framed_eval (fuel : Nat) (e : Expr) (w : World) : w.Framed (exec (eval fuel e) w).2 :=
  (Discipline.does_eval (D := .frame) (i := ()) fuel (fun h => h.elim)
    ⟨trivial, fun h => h.elim⟩).2.2.1

/-- Whatever the outcome of evaluation is, the scope is left as it was found, but for statements
added at the end, tags taken, and results of which the innermost open scope of the table knows. -/
theorem restores_eval (fuel : Nat) (e : Expr) (w : World) :
    let scope := w.scope
    let scope' := (exec (eval fuel e) w).2.scope
    scope'.env = scope.env ∧ scope'.trace = scope.trace ∧
      scope'.dynamicDepth = scope.dynamicDepth ∧ scope'.owner = scope.owner ∧
      scope'.sharing.scopes.length = scope.sharing.scopes.length ∧
      scope.stmts <+: scope'.stmts ∧ scope.tags.next ≤ scope'.tags.next ∧
      (∀ a v, scope.sharing.get? a = some v → scope'.sharing.get? a = some v) ∧
      ∃ added, scope'.sharing.entries = added ++ scope.sharing.entries ∧
        scope'.sharing.scopes = match scope.sharing.scopes with
          | [] => []
          | inner :: outer => (added.map Prod.fst ++ inner) :: outer := by
  have h := framed_eval fuel e w
  refine ⟨h.env, h.trace, h.dynamicDepth, h.later.owner, ?scopes, h.stmts, h.tags,
    fun _ _ => h.sharing.get?, ?entries⟩
  case scopes =>
    obtain ⟨added, -, -, hscopes⟩ := h.sharing
    rw [hscopes]
    cases w.scope.sharing.scopes <;> rfl
  case entries =>
    obtain ⟨added, hentries, -, hscopes⟩ := h.sharing
    exact ⟨added, hentries, hscopes⟩

/-- The evaluation of the program itself waits for no join point. -/
lemma exec_pendingRecursion {w : World} (howner : w.scope.owner = none) (fault : Fault) :
    exec (pendingRecursion fault) w = (.ok none, w) := by
  unfold pendingRecursion
  split
  · rfl
  · rw [exec_bind_of_ok (exec_getScope w), howner]
    rfl

/-- In a program itself a split goes on only after a branch that succeeds. -/
lemma exec_firstRun_cons {m : Eval Term} {rest : List (Eval Term)} {w w' : World}
    {bodies : List (Option Term)} {recursed : Option (Fault × Point)}
    (howner : (exec (inBranch m) w).2.scope.owner = none)
    (h : exec (firstRun (m :: rest)) w = (.ok (bodies, recursed), w')) :
    ∃ b w₁ bodies', exec (inBranch m) w = (.ok b, w₁) ∧
      exec (firstRun rest) w₁ = (.ok (bodies', recursed), w') ∧ bodies = some b :: bodies' := by
  rw [firstRun] at h
  obtain ⟨outcome, w₁, hattempt, h⟩ := exec_bind_eq_ok.1 h
  rw [exec_attempt] at hattempt
  rcases hrun : exec (inBranch m) w with ⟨r, w₂⟩
  rw [hrun] at hattempt howner
  cases r with
  | ok b =>
    cases hattempt
    obtain ⟨⟨bodies', recursed'⟩, w₃, hrest, h⟩ := exec_bind_eq_ok.1 h
    cases h
    exact ⟨b, w₂, bodies', rfl, hrest, rfl⟩
  | error stop =>
    cases stop with
    | failed fault =>
      cases hattempt
      rw [exec_bind_of_ok (exec_pendingRecursion howner fault)] at h
      cases h
    | tagsExhausted => cases hattempt
    | outOfFuel => cases hattempt

lemma owner_inBranch {m : Eval Term} (hm : ∀ w, (exec m w).2.scope.owner = w.scope.owner)
    (w : World) : (exec (inBranch m) w).2.scope.owner = w.scope.owner := by
  rw [exec_inBranch]
  exact hm w.enterBranch

/-- In a program itself both branches of a split succeed if the split does. -/
theorem exec_branches_eq_ok {m₁ m₂ : Eval Term} {w w' : World} {bodies : List Term}
    (hm₁ : ∀ w, (exec m₁ w).2.scope.owner = w.scope.owner)
    (hm₂ : ∀ w, (exec m₂ w).2.scope.owner = w.scope.owner) (howner : w.scope.owner = none)
    (h : exec (branches [m₁, m₂]) w = (.ok bodies, w')) :
    ∃ b₁ w₁ b₂, exec (inBranch m₁) w = (.ok b₁, w₁) ∧ exec (inBranch m₂) w₁ = (.ok b₂, w') ∧
      bodies = [b₁, b₂] := by
  obtain ⟨⟨found, recursed⟩, w₂, hfirst, h⟩ := exec_bind_eq_ok.1 h
  obtain ⟨b₁, w₁, found₁, hrun₁, hrest, rfl⟩ :=
    exec_firstRun_cons ((owner_inBranch hm₁ w).trans howner) hfirst
  have howner₁ : w₁.scope.owner = none := by
    have := (owner_inBranch hm₁ w).trans howner
    rwa [hrun₁] at this
  obtain ⟨b₂, w₃, found₂, hrun₂, hnil, rfl⟩ :=
    exec_firstRun_cons ((owner_inBranch hm₂ w₁).trans howner₁) hrest
  cases hnil
  cases h
  exact ⟨b₁, w₁, b₂, hrun₁, hrun₂, rfl⟩

end Eval

end Residual
