import Residual.Proofs.Surface.Building

/-!
How patterns are lowered, said once for every judgement of work on a store.

Lowering puts code together from names, variables, literals, functions and operations, and from the
expressions inside the pattern. Main statement: a judgement that holds of these steps, and of one
piece of work after another, holds of lowering a pattern.
-/

namespace Residual

/-! ### Expressions inside patterns -/

mutual

/-- The expressions inside a pattern. -/
def Pattern.codes : Pattern → List Expr
  | .node _ kind => kind.codes

def PatternKind.codes : PatternKind → List Expr
  | .wildcard | .var _ | .lit _ => []
  | .tuple items => Pattern.codesOfAll items
  | .cons items rest => Pattern.codesOfAll items ++ rest.codes
  | .typeEq inner type => type :: inner.codes
  | .active f inner | .partialActive f inner | .extension f inner => f :: inner.codes
  | .or alternatives => Pattern.codesOfAll alternatives
  | .and parts => Pattern.codesOfAll parts
  | .guarded inner guard => guard :: inner.codes
  | .module m => m.codes
  | .clauses arms => Clause.codesOfAll arms

def Pattern.codesOfAll : List Pattern → List Expr
  | [] => []
  | p :: rest => p.codes ++ Pattern.codesOfAll rest

def ModulePattern.codes : ModulePattern → List Expr
  | .member _ _ => []
  | .inner _ p => p.codes
  | .and parts => ModulePattern.codesOfAll parts
  | .or alternatives => ModulePattern.codesOfAll alternatives
  | .xor a b => a.codes ++ b.codes
  | .not m => m.codes

def ModulePattern.codesOfAll : List ModulePattern → List Expr
  | [] => []
  | m :: rest => m.codes ++ ModulePattern.codesOfAll rest

def Clause.codes : Clause → List Expr
  | .mk p body => body :: p.codes

def Clause.codesOfAll : List Clause → List Expr
  | [] => []
  | c :: rest => c.codes ++ Clause.codesOfAll rest

end

/-- The expressions that a node is built from, those inside a pattern included. -/
def ExprKind.codes : ExprKind → List Expr
  | .pattern p => p.codes
  | .function _ body | .filtered _ _ body | .recFunction _ _ body => [body]
  | .tuple es | .op _ es => es
  | .pos _ e => [e]
  | .var _ | .lit _ => []

namespace Build

variable {α β : Type}

/-! ### Work that adds to a store -/

/-- The work only adds to the store. -/
class Adds (act : Build α) : Prop where
  grows : ∀ st : Store, st.Grows (act.run st).2

lemma Does.adds {act : Build α} {Q : α → Prop} (h : Does False act Q) : Adds act :=
  ⟨fun st => (h st False.elim).1⟩

instance (a : α) : Adds (pure a : Build α) := ⟨fun st => .refl st⟩

instance {act : Build α} {f : α → Build β} [ha : Adds act] [hf : ∀ a, Adds (f a)] :
    Adds (act >>= f) :=
  ⟨fun st => (ha.grows st).trans ((hf _).grows _)⟩

instance (s : String) : Adds (name s) := Does.adds (does_name s)

instance (hint : String) : Adds (fresh hint) := Does.adds (does_fresh hint)

instance (kind : ExprKind) : Adds (expr kind) := Does.adds (does_expr kind False.elim)

instance (kind : PatternKind) : Adds (pattern kind) := Does.adds (does_pattern kind False.elim)

instance (x : Name) : Adds (var x) := inferInstanceAs (Adds (expr _))

instance (l : Literal) : Adds (lit l) := inferInstanceAs (Adds (expr _))

instance (x : Name) (body : Expr) : Adds (function x body) := inferInstanceAs (Adds (expr _))

instance (items : List Expr) : Adds (tuple items) := inferInstanceAs (Adds (expr _))

instance : Adds unit := inferInstanceAs (Adds (tuple _))

instance (o : Op) (args : List Expr) : Adds (op o args) := inferInstanceAs (Adds (expr _))

instance (f arg : Expr) : Adds (apply f arg) := inferInstanceAs (Adds (op _ _))

instance (test yes no : Expr) : Adds (cond test yes no) := inferInstanceAs (Adds (op _ _))

instance (x : Name) (bound rest : Expr) : Adds (letIn x bound rest) :=
  inferInstanceAs (Adds (_ >>= _))

instance (body : Expr) : Adds (thunk body) := inferInstanceAs (Adds (_ >>= _))

instance (x : Name) : Adds (force x) := inferInstanceAs (Adds (_ >>= _))

instance (failure : Expr) (build : Expr → Build Expr) [∀ call, Adds (build call)] :
    Adds (withFailure failure build) :=
  inferInstanceAs (Adds (_ >>= _))

instance (v : Name) (p : Pattern) (at_ : Name → Build Expr) [h : ∀ x, Adds (at_ x)] :
    Adds (splitting v p at_) := by
  unfold splitting
  split
  · infer_instance
  · exact h v

instance (v : Name) (p : Pattern) (succ fail : Expr) : Adds (lowerAt v p succ fail) :=
  Does.adds (does_lowerAt v p succ fail False.elim False.elim False.elim)

instance (v : Name) (ps : List Pattern) (succ fail : Expr) :
    Adds (lowerAlternatives v ps succ fail) :=
  Does.adds (does_lowerAlternatives v ps succ fail False.elim False.elim False.elim)

instance (v : Name) (arms : List Clause) (succ fail : Expr) : Adds (lowerArms v arms succ fail) :=
  Does.adds (does_lowerArms v arms succ fail False.elim False.elim False.elim)

instance (v : Name) (ps : List Pattern) (succ fail : Expr) : Adds (lowerParts v ps succ fail) :=
  Does.adds (does_lowerParts v ps succ fail False.elim False.elim False.elim)

instance (v : Name) (i : Nat) (ps : List Pattern) (succ fail : Expr) :
    Adds (lowerElements v i ps succ fail) :=
  Does.adds (does_lowerElements v i ps succ fail False.elim False.elim False.elim)

instance (v : Name) (m : ModulePattern) (succ fail : Expr) : Adds (lowerModule v m succ fail) :=
  Does.adds (does_lowerModule v m succ fail False.elim False.elim False.elim)

instance (v : Name) (ms : List ModulePattern) (succ fail : Expr) :
    Adds (lowerModules v ms succ fail) :=
  Does.adds (does_lowerModules v ms succ fail False.elim False.elim False.elim)

instance (v : Name) (ms : List ModulePattern) (succ fail : Expr) :
    Adds (lowerModuleAlternatives v ms succ fail) :=
  Does.adds (does_lowerModuleAlternatives v ms succ fail False.elim False.elim False.elim)

instance (v : Name) (miss : Expr) (arms : List Clause) : Adds (lowerClauses v miss arms) :=
  Does.adds (does_lowerClauses v False.elim False.elim)

instance (p : Pattern) : Adds (clausesOf p) := Does.adds (does_clausesOf False.elim)

instance (p : Pattern) : Adds (lowerPattern p) :=
  Does.adds (does_lowerPattern False.elim)

/-! ### Lowering -/

/-- A judgement of work on a store, `J act P` if the result of `act` has the property `P`, that
goes through lowering. The code that is put together has the property `H`. -/
structure Lowers (H : Expr → Prop) (J : {α : Type} → Build α → (α → Prop) → Prop) : Prop where
  pure : ∀ {α : Type} {a : α} {P : α → Prop}, P a → J (Pure.pure a) P
  bind : ∀ {α β : Type} {act : Build α} {next : α → Build β} {P : α → Prop} {Q : β → Prop}
    [∀ a, Adds (next a)], J act P → (∀ a, P a → J (next a) Q) → J (act >>= next) Q
  fresh : ∀ hint : String, J (Build.fresh hint) fun _ => True
  var : ∀ x : Name, J (Build.var x) H
  lit : ∀ l : Literal, J (Build.lit l) H
  function : ∀ {x : Name} {body : Expr}, H body → J (Build.function x body) H
  unit : J Build.unit H
  op : ∀ {o : Op} {args : List Expr}, (∀ a ∈ args, H a) → J (Build.op o args) H
  wildcard : J (Build.pattern .wildcard) fun p => ∀ c ∈ p.codes, H c

namespace Lowers

variable {H : Expr → Prop} {J : {α : Type} → Build α → (α → Prop) → Prop}

section Steps

variable (W : Lowers H J)
include W

lemma op₁ {o : Op} {a : Expr} (ha : H a) : J (Build.op o [a]) H :=
  W.op (List.forall_mem_singleton.2 ha)

lemma op₂ {o : Op} {a b : Expr} (ha : H a) (hb : H b) : J (Build.op o [a, b]) H :=
  W.op (List.forall_mem_cons.2 ⟨ha, List.forall_mem_singleton.2 hb⟩)

lemma cond {test yes no : Expr} (ht : H test) (hy : H yes) (hn : H no) :
    J (Build.cond test yes no) H :=
  W.op (List.forall_mem_cons.2 ⟨ht, List.forall_mem_cons.2 ⟨hy, List.forall_mem_singleton.2 hn⟩⟩)

lemma letIn {x : Name} {bound rest : Expr} (hb : H bound) (hr : H rest) :
    J (Build.letIn x bound rest) H :=
  W.bind (W.function hr) fun _ hf => W.op₂ hf hb

lemma thunk {body : Expr} (hb : H body) : J (Build.thunk body) H :=
  W.bind (W.fresh "_") fun _ _ => W.function hb

lemma force (x : Name) : J (Build.force x) H :=
  W.bind (W.var x) fun _ hf => W.bind W.unit fun _ hu => W.op₂ hf hu

lemma withFailure {failure : Expr} {build : Expr → Build Expr} [∀ call, Adds (build call)]
    (hf : H failure) (hb : ∀ call, H call → J (build call) H) :
    J (Build.withFailure failure build) H :=
  W.bind (W.fresh "fail") fun k _ => W.bind (W.thunk hf) fun _ ht => W.bind (W.force k)
    fun call hc => W.bind (hb call hc) fun _ hbody => W.letIn ht hbody

lemma splitting {v : Name} {p : Pattern} {lower : Name → Build Expr} [∀ x, Adds (lower x)]
    (h : ∀ x, J (lower x) H) : J (Build.splitting v p lower) H := by
  unfold Build.splitting
  split
  · exact W.bind (W.fresh "part") fun part _ => W.bind (h part) fun _ hbody =>
      W.bind (W.function hbody) fun _ hf => W.bind (W.var v) fun _ hv => W.op₂ hv hf
  · exact h v

end Steps

-- Lowering `xor` is a long chain of work.
set_option synthInstance.maxSize 512 in
mutual

lemma lowerAt (W : Lowers H J) (v : Name) (p : Pattern) (succ fail : Expr)
    (hp : ∀ c ∈ p.codes, H c) (hs : H succ) (hf : H fail) : J (Build.lowerAt v p succ fail) H := by
  match p with
  | .node _ kind => exact lowerKind W v kind succ fail hp hs hf
termination_by structural p

lemma lowerKind (W : Lowers H J) (v : Name) (kind : PatternKind) (succ fail : Expr)
    (hk : ∀ c ∈ kind.codes, H c) (hs : H succ) (hf : H fail) :
    J (Build.lowerKind v kind succ fail) H := by
  -- Every piece of code is made of names, of the exits and of code that is in the pattern.
  match kind with
  | .wildcard => exact W.pure hs
  | .var x => exact W.bind (W.var v) fun _ hv => W.letIn hv hs
  | .lit l =>
    exact W.bind (W.var v) fun _ hv => W.bind (W.lit l) fun _ hl =>
      W.bind (W.op₂ hv hl) fun _ htype => W.bind (W.op₂ hv hl) fun _ hvalue =>
      W.bind (W.cond hvalue hs hf) fun _ hinner => W.cond htype hinner hf
  | .tuple items =>
    exact W.bind (lowerElements W v 0 items succ fail hk hs hf) fun _ hm =>
      W.bind (W.var v) fun _ hv => W.bind (W.op₁ hv) fun _ hc => W.cond hc hm hf
  -- The rest of a prefix is bound inside the elements before it.
  | .cons items rest =>
    obtain ⟨hitems, hrest⟩ := List.forall_mem_append.1 hk
    have hrest := fun x => lowerAt W x rest succ fail hrest hs hf
    refine W.bind (W.fresh "rest") fun others _ => W.bind (W.splitting hrest) fun _ hr => ?_
    refine W.bind (W.var v) fun _ hv => W.bind (W.op₁ hv) fun _ hslice => ?_
    refine W.bind (W.letIn hslice hr) fun withRest hw => ?_
    refine W.bind (lowerElements W v 0 items withRest fail hitems hw hf) fun _ hm => ?_
    exact W.bind (W.op₁ hv) fun _ hc => W.cond hc hm hf
  -- Tests by code in the pattern: the pattern inside runs if they succeed.
  | .typeEq inner type =>
    obtain ⟨htype, hinner⟩ := List.forall_mem_cons.1 hk
    have hinner := fun x => lowerAt W x inner succ fail hinner hs hf
    exact W.bind (W.splitting hinner) fun _ hm => W.bind (W.var v) fun _ hv =>
      W.bind (W.op₂ hv htype) fun _ hc => W.cond hc hm hf
  | .active f inner =>
    obtain ⟨hfun, hinner⟩ := List.forall_mem_cons.1 hk
    have hinner := fun x => lowerAt W x inner succ fail hinner hs hf
    exact W.bind (W.fresh "active") fun result _ => W.bind (W.splitting hinner) fun _ hm =>
      W.bind (W.var v) fun _ hv => W.bind (W.op₂ hfun hv) fun _ hc => W.letIn hc hm
  | .partialActive f inner =>
    obtain ⟨hfun, hinner⟩ := List.forall_mem_cons.1 hk
    have hinner := fun x => lowerAt W x inner succ fail hinner hs hf
    refine W.bind (W.fresh "partial") fun result _ => W.bind (W.fresh "payload") fun payload _ => ?_
    refine W.bind (W.splitting hinner) fun _ hm => ?_
    refine W.bind (W.var result) fun _ ha => W.bind (W.op₁ ha) fun _ hsecond => ?_
    refine W.bind (W.letIn hsecond hm) fun _ hb => W.bind (W.op₁ ha) fun _ hflag => ?_
    refine W.bind (W.cond hflag hb hf) fun _ hbranch => W.bind (W.var v) fun _ hv => ?_
    exact W.bind (W.op₂ hfun hv) fun _ hc => W.letIn hc hbranch
  | .extension f inner =>
    obtain ⟨hfun, hinner⟩ := List.forall_mem_cons.1 hk
    have hinner := fun x => lowerAt W x inner succ fail hinner hs hf
    exact W.bind (W.splitting hinner) fun _ hm => W.bind (W.var v) fun _ hv =>
      W.bind (W.op₂ hfun hv) fun _ hc => W.cond hc hm hf
  | .or alternatives => exact lowerAlternatives W v alternatives succ fail hk hs hf
  | .and parts => exact lowerParts W v parts succ fail hk hs hf
  | .guarded inner guard =>
    obtain ⟨hguard, hinner⟩ := List.forall_mem_cons.1 hk
    exact W.bind (W.cond hguard hs hf) fun guarded hg =>
      W.splitting fun x => lowerAt W x inner guarded fail hinner hg hf
  | .module m => exact lowerModule W v m succ fail hk hs hf
  | .clauses arms => exact lowerArms W v arms succ fail hk hs hf
termination_by structural kind

lemma lowerAlternatives (W : Lowers H J) (v : Name) (ps : List Pattern) (succ fail : Expr)
    (hp : ∀ c ∈ Pattern.codesOfAll ps, H c) (hs : H succ) (hf : H fail) :
    J (Build.lowerAlternatives v ps succ fail) H := by
  match ps with
  | [] => exact W.pure hf
  | p :: rest =>
    obtain ⟨hp, hrest⟩ := List.forall_mem_append.1 hp
    exact W.bind (lowerAlternatives W v rest succ fail hrest hs hf) fun _ hl =>
      W.withFailure hl fun next hn => W.splitting fun x => lowerAt W x p succ next hp hs hn
termination_by structural ps

lemma lowerArms (W : Lowers H J) (v : Name) (arms : List Clause) (succ fail : Expr)
    (ha : ∀ c ∈ Clause.codesOfAll arms, H c) (hs : H succ) (hf : H fail) :
    J (Build.lowerArms v arms succ fail) H := by
  match arms with
  | [] => exact W.pure hf
  | .mk p body :: rest =>
    obtain ⟨harm, hrest⟩ := List.forall_mem_append.1 ha
    obtain ⟨-, hp⟩ := List.forall_mem_cons.1 harm
    exact W.bind (lowerArms W v rest succ fail hrest hs hf) fun _ hl =>
      W.withFailure hl fun next hn => W.splitting fun x => lowerAt W x p succ next hp hs hn
termination_by structural arms

lemma lowerParts (W : Lowers H J) (v : Name) (ps : List Pattern) (succ fail : Expr)
    (hp : ∀ c ∈ Pattern.codesOfAll ps, H c) (hs : H succ) (hf : H fail) :
    J (Build.lowerParts v ps succ fail) H := by
  match ps with
  | [] => exact W.pure hs
  | p :: rest =>
    obtain ⟨hp, hrest⟩ := List.forall_mem_append.1 hp
    exact W.bind (lowerParts W v rest succ fail hrest hs hf) fun later hl =>
      W.splitting fun x => lowerAt W x p later fail hp hl hf
termination_by structural ps

lemma lowerElements (W : Lowers H J) (v : Name) (i : Nat) (ps : List Pattern) (succ fail : Expr)
    (hp : ∀ c ∈ Pattern.codesOfAll ps, H c) (hs : H succ) (hf : H fail) :
    J (Build.lowerElements v i ps succ fail) H := by
  match ps with
  | [] => exact W.pure hs
  | p :: rest =>
    obtain ⟨hp, hrest⟩ := List.forall_mem_append.1 hp
    refine W.bind (lowerElements W v (i + 1) rest succ fail hrest hs hf) fun later hl => ?_
    have hpart := fun x => lowerAt W x p later fail hp hl hf
    exact W.bind (W.fresh "elem") fun element _ => W.bind (W.splitting hpart) fun _ hm =>
      W.bind (W.var v) fun _ hv => W.bind (W.op₁ hv) fun _ hi => W.letIn hi hm
termination_by structural ps

lemma lowerModule (W : Lowers H J) (v : Name) (m : ModulePattern) (succ fail : Expr)
    (hm : ∀ c ∈ m.codes, H c) (hs : H succ) (hf : H fail) :
    J (Build.lowerModule v m succ fail) H := by
  match m with
  | .member field bind =>
    exact W.bind (W.var v) fun _ hv => W.bind (W.op₁ hv) fun _ hhas =>
      W.bind (W.op₁ hv) fun _ hopened => W.bind (W.letIn hopened hs) fun _ hbound =>
      W.cond hhas hbound hf
  | .inner field p =>
    have hinner := fun x => lowerAt W x p succ fail hm hs hf
    exact W.bind (W.fresh "field") fun inner _ => W.bind (W.splitting hinner) fun _ hmatched =>
      W.bind (W.var v) fun _ hv => W.bind (W.op₁ hv) fun _ hhas => W.bind (W.op₁ hv)
      fun _ hopened => W.bind (W.letIn hopened hmatched) fun _ hbound => W.cond hhas hbound hf
  | .and parts => exact lowerModules W v parts succ fail hm hs hf
  | .or alternatives => exact lowerModuleAlternatives W v alternatives succ fail hm hs hf
  | .not inner =>
    exact W.bind (W.fresh "not") fun s _ => W.bind (W.thunk hs) fun _ ht =>
      W.bind (W.force s) fun call hc => W.bind (lowerModule W v inner fail call hm hf hc)
      fun _ hb => W.letIn ht hb
  | .xor a b =>
    obtain ⟨ha, hb⟩ := List.forall_mem_append.1 hm
    refine W.bind (W.fresh "xor_fail") fun f _ => W.bind (W.thunk hf) fun _ hfailThunk => ?_
    refine W.bind (W.force f) fun callFail hcallFail => ?_
    refine W.bind (lowerModule W v b succ callFail hb hs hcallFail) fun onlyB honlyB => ?_
    refine W.bind (W.withFailure honlyB fun tryB htryB => ?_) fun _ hbody =>
      W.letIn hfailThunk hbody
    refine W.bind (W.fresh "xor_ok") fun s _ => W.bind (W.thunk hs) fun _ hokThunk => ?_
    refine W.bind (W.force s) fun callOk hcallOk => W.bind (W.force f) fun callFail hcallFail => ?_
    refine W.bind (lowerModule W v b callFail callOk hb hcallFail hcallOk) fun _ hmust => ?_
    refine W.bind (W.letIn hokThunk hmust) fun afterA hafterA => ?_
    exact lowerModule W v a afterA tryB ha hafterA htryB
termination_by structural m

lemma lowerModules (W : Lowers H J) (v : Name) (ms : List ModulePattern) (succ fail : Expr)
    (hm : ∀ c ∈ ModulePattern.codesOfAll ms, H c) (hs : H succ) (hf : H fail) :
    J (Build.lowerModules v ms succ fail) H := by
  match ms with
  | [] => exact W.pure hs
  | m :: rest =>
    obtain ⟨hm, hrest⟩ := List.forall_mem_append.1 hm
    exact W.bind (lowerModules W v rest succ fail hrest hs hf) fun later hl =>
      lowerModule W v m later fail hm hl hf
termination_by structural ms

lemma lowerModuleAlternatives (W : Lowers H J) (v : Name) (ms : List ModulePattern)
    (succ fail : Expr) (hm : ∀ c ∈ ModulePattern.codesOfAll ms, H c) (hs : H succ) (hf : H fail) :
    J (Build.lowerModuleAlternatives v ms succ fail) H := by
  match ms with
  | [] => exact W.pure hf
  | m :: rest =>
    obtain ⟨hm, hrest⟩ := List.forall_mem_append.1 hm
    exact W.bind (lowerModuleAlternatives W v rest succ fail hrest hs hf) fun _ hl =>
      W.withFailure hl fun next hn => lowerModule W v m succ next hm hs hn
termination_by structural ms

end

section Clauses

variable (W : Lowers H J)
include W

lemma lowerClauses (v : Name) {miss : Expr} (hmiss : H miss) {arms : List Clause}
    (ha : ∀ c ∈ Clause.codesOfAll arms, H c) :
    J (Build.lowerClauses v miss arms) H := by
  induction arms with
  | nil => exact W.pure hmiss
  | cons arm rest ih =>
    obtain ⟨p, body⟩ := arm
    obtain ⟨harm, hrest⟩ := List.forall_mem_append.1 ha
    obtain ⟨hbody, hp⟩ := List.forall_mem_cons.1 harm
    exact W.bind (ih hrest) fun _ hl => W.withFailure hl fun fail hf =>
      W.lowerAt v p body fail hp hbody hf

lemma clausesOf {p : Pattern} (hp : ∀ c ∈ p.codes, H c) :
    J (Build.clausesOf p) fun arms => ∀ c ∈ Clause.codesOfAll arms, H c := by
  have hdefault : J (do
      let yes ← Build.lit (.bool true)
      let no ← Build.lit (.bool false)
      let wildcard ← Build.pattern .wildcard
      return [.mk p yes, .mk wildcard no]) fun arms => ∀ c ∈ Clause.codesOfAll arms, H c := by
    refine W.bind (W.lit _) fun _ hy => W.bind (W.lit _) fun _ hn => ?_
    refine W.bind W.wildcard fun w hw => W.pure ?_
    intro c hc
    simp only [Clause.codesOfAll, Clause.codes, List.append_nil, List.cons_append, List.mem_cons,
      List.mem_append] at hc
    rcases hc with rfl | hc | rfl | hc
    · exact hy
    · exact hp c hc
    · exact hn
    · exact hw c hc
  obtain ⟨symbol, kind⟩ := p
  cases kind with
  | clauses arms => exact W.pure hp
  | _ => exact hdefault

lemma lowerTop {p : Pattern} (hp : ∀ c ∈ p.codes, H c) : J (Build.lowerTop p) H := by
  refine W.bind (W.clausesOf hp) fun arms ha => W.bind (W.fresh "arg") fun arg _ => ?_
  refine W.bind (W.fresh "scrutinee") fun scrutinee _ => W.bind (W.var scrutinee) fun _ hv => ?_
  refine W.bind (W.op₁ hv) fun _ hmiss => ?_
  refine W.bind (W.lowerClauses scrutinee hmiss ha) fun _ hbody => ?_
  exact W.bind (W.function hbody) fun _ hf => W.bind (W.var arg) fun _ hv =>
    W.bind (W.op₂ hv hf) fun _ hsplit => W.function hsplit

end Clauses

end Lowers

end Build

end Residual
