import Residual.Proofs.Eval.RegionSteps
import Residual.Proofs.Session.Programs
import Residual.Proofs.Typed.Places

/-!
The code of compiled programs.

A compilation starts from an environment of atomic values. The types of packed maps in it were
made in the session. Main statements: where each tag has one type, the main code and the functions
of a program are closed and bind each tag once; and where boxes hold members of their unions,
every node obeys its typing rule.
-/

namespace Residual

open Eval

/-! ### Environments of atomic values -/

/-- The term is code that runs, and no value. -/
def Term.isCode : Term → Bool
  | .letIn _ _ _ _ | .state _ _ _ | .op _ _ _ | .call _ _ _ _ => true
  | .type _ | .var _ | .tuple _ | .map _ _ | .box _ _ | .lit _ => false

/-- The visible values have no code in them. -/
def Env.Atomic (env : Env) : Prop := ∀ n ∈ env.nodes, n.isCode = false

instance (env : Env) : Decidable env.Atomic :=
  inferInstanceAs (Decidable (∀ n ∈ env.nodes, n.isCode = false))

mutual

/-- The variables of an atomic value have tags below the next one. -/
theorem Term.tag_lt_nextTag (t : Term) (hatomic : ∀ n ∈ t.nodes, n.isCode = false) {v : Var}
    (hv : v ∈ t.vars) (hlimit : v.tag < Tags.limit) : v.tag < t.nextTag := by
  match t with
  | .type _ | .lit _ | .letIn _ _ _ _ | .state _ _ _ | .call _ _ _ _ =>
    exact absurd hv List.not_mem_nil
  | .var u =>
    rw [List.mem_singleton.1 hv] at hlimit ⊢
    rw [Term.nextTag, Nat.mod_eq_of_lt (Nat.succ_lt_succ hlimit)]
    exact Nat.lt_succ_self _
  | .tuple items =>
    exact Term.tag_lt_nextTagOfAll items (fun n hn => hatomic n (List.mem_cons_of_mem _ hn)) hv
      hlimit
  | .map env kind =>
    exact Env.tag_lt_nextTag env (fun n hn => hatomic n (List.mem_cons_of_mem _ hn)) hv hlimit
  | .box inner ty =>
    exact Term.tag_lt_nextTag inner (fun n hn => hatomic n (List.mem_cons_of_mem _ hn)) hv hlimit
  | .op o args ty => cases hatomic _ (List.mem_cons_self ..)
termination_by structural t

lemma Term.tag_lt_nextTagOfAll (ts : List Term)
    (hatomic : ∀ n ∈ Term.nodesOfAll ts, n.isCode = false) {v : Var} (hv : v ∈ Term.varsOfAll ts)
    (hlimit : v.tag < Tags.limit) : v.tag < Term.nextTagOfAll ts := by
  match ts with
  | [] => exact absurd hv List.not_mem_nil
  | t :: rest =>
    rw [Term.nextTagOfAll]
    obtain ⟨ht, hrest⟩ := List.forall_mem_append.1 hatomic
    rcases List.mem_append.1 hv with hv | hv
    · exact Nat.lt_of_lt_of_le (Term.tag_lt_nextTag t ht hv hlimit) (Nat.le_max_left ..)
    · exact Nat.lt_of_lt_of_le (Term.tag_lt_nextTagOfAll rest hrest hv hlimit)
        (Nat.le_max_right ..)
termination_by structural ts

lemma Env.tag_lt_nextTag (env : Env) (hatomic : env.Atomic) {v : Var} (hv : v ∈ env.vars)
    (hlimit : v.tag < Tags.limit) : v.tag < env.nextTag := by
  match env with
  | .plain m => exact Env.tag_lt_nextTagOfFields _ m hatomic hv hlimit
  | .restricted m used => exact Env.tag_lt_nextTagOfFields _ m hatomic hv hlimit
  | .consed _ m => exact Env.tag_lt_nextTagOfFields _ m hatomic hv hlimit
termination_by structural env

lemma Env.tag_lt_nextTagOfFields (keep : Name → Bool) (m : List (Name × Term))
    (hatomic : ∀ n ∈ Env.nodesOfFields keep m, n.isCode = false) {v : Var}
    (hv : v ∈ Env.varsOfFields keep m) (hlimit : v.tag < Tags.limit) :
    v.tag < Env.nextTagOfFields keep m := by
  match m with
  | [] => exact absurd hv List.not_mem_nil
  | (x, t) :: rest =>
    by_cases hx : keep x = true
    · rw [Env.nodesOfFields, if_pos hx] at hatomic
      rw [Env.varsOfFields, if_pos hx] at hv
      rw [Env.nextTagOfFields, if_pos hx]
      obtain ⟨ht, hrest⟩ := List.forall_mem_append.1 hatomic
      rcases List.mem_append.1 hv with hv | hv
      · exact Nat.lt_of_lt_of_le (Term.tag_lt_nextTag t ht hv hlimit) (Nat.le_max_left ..)
      · exact Nat.lt_of_lt_of_le (Env.tag_lt_nextTagOfFields keep rest hrest hv hlimit)
          (Nat.le_max_right ..)
    · rw [Env.nodesOfFields, if_neg hx] at hatomic
      rw [Env.varsOfFields, if_neg hx] at hv
      rw [Env.nextTagOfFields, if_neg hx]
      exact Env.tag_lt_nextTagOfFields keep rest hatomic hv hlimit
termination_by structural m

end

/-! ### Calls and sessions that meet demands -/

/-- The environment of the compilation has atomic values, and packed maps in it have types made in
the session. Where it is asked for, each tag is in the range of tags and has one type, and boxes
hold members of their unions. -/
structure Call.Meets (asks : Demands) (s : Session) (c : Call) : Prop where
  formed : c.Formed
  atomic : c.env.Atomic
  sound : c.env.Sound ⟨s.envs, asks⟩ false
  limit : asks.tracked → ∀ v ∈ c.env.vars, v.tag < Tags.limit
  oneType : asks.tracked → Var.OneType c.env.vars

/-- The session was new, and then ran compilations that meet the demands. -/
inductive Session.Reached (asks : Demands) : Session → Prop where
  | new (settings : Settings) : Reached asks { settings }
  | run {s : Session} {c : Call} : Reached asks s → c.Meets asks s → Reached asks (c.run s).2

/-- The place of the main code. -/
def Call.region (asks : Demands) (c : Call) : Region := ⟨asks, c.env.vars, c.env.nextTag⟩

namespace Call.Meets

variable {asks : Demands} {c : Call} {s : Session}

lemma ready (h : c.Meets asks s) (hformed : s.Formed) (hsound : s.Sound asks) :
    (c.region asks).Ready (c.world s) := by
  refine ⟨⟨h.formed.filtered.2, hformed.envs, hformed.points, hformed.recTypes⟩,
    hsound.setEnvs (.refl _) hsound.envs rfl rfl, ⟨⟨h.formed.env, trivial⟩, h.sound, ?_⟩,
    fun e he => absurd he List.not_mem_nil, fun s hs => absurd hs List.not_mem_nil,
    fun htracked => ?_⟩
  · exact fun _ v hv => .of_mem (List.mem_append_left _ hv)
  · exact ⟨h.oneType htracked,
      fun v hv => Env.tag_lt_nextTag c.env h.atomic hv (h.limit htracked v hv), Nat.le_refl _,
      trivial, List.nodup_nil, fun tag htag => absurd htag List.not_mem_nil,
      fun s hs => absurd hs List.not_mem_nil⟩

/-- A compilation ends in a good world, with a value there if it succeeds. -/
theorem does (h : c.Meets asks s) (hknown : ∀ key, asks.known key) (hformed : s.Formed)
    (hsound : s.Sound asks) :
    (c.region asks).Ready (exec (eval c.fuel c.code) (c.world s)).2 ∧
      ∀ value, (exec (eval c.fuel c.code) (c.world s)).1 = .ok value →
        (c.region asks).Value (exec (eval c.fuel c.code) (c.world s)).2 value := by
  obtain ⟨hready, -, hvalue⟩ := (Region.evaluator_eval hknown c.fuel).good (c.region asks) rfl
    c.code (c.world s) h.formed.filtered.1 (h.ready hformed hsound)
  exact ⟨hready, hvalue⟩

end Call.Meets

lemma Session.sound_new (asks : Demands) (settings : Settings) :
    Session.Sound asks { settings } := by
  refine ⟨?_, ?_, ?_, ?_⟩ <;> exact fun _ h => absurd h List.not_mem_nil

/-- Whatever compilations a session ran, what it keeps is sound. -/
theorem Session.Reached.sound {asks : Demands} (hknown : ∀ key, asks.known key) {s : Session}
    (h : s.Reached asks) : s.Formed ∧ s.Sound asks := by
  induction h with
  | new settings => exact ⟨Session.formed_new settings, Session.sound_new asks settings⟩
  | @run s c _ hc ih =>
    rw [c.session_run s]
    have hready := (hc.does hknown ih.1 ih.2).1
    exact ⟨hready.session, hready.sound⟩

/-! ### Main code and functions -/

/-- What the demands say of a program whose main code uses the variables. -/
structure Program.Meets (asks : Demands) (vars : List Var) (p : Program) : Prop where
  typed : asks.typed → ∀ n ∈ p.main.nodes, n.Obeys
  tracked : asks.tracked → p.main.SingleAssignment vars
  functions : ∀ f ∈ p.functions, ∃ envs, f.body.Closed ⟨envs, asks⟩

namespace Region

variable {i : Region} {w : World}

/-- The statements of a region around a value. -/
lemma Ready.singleAssignment (hw : i.Ready w) (htracked : i.asks.tracked) {value : Term}
    (hv : i.Value w value) : (Stmt.close w.scope.stmts value).SingleAssignment i.vars := by
  have hlaid := hw.laid htracked
  have hbound : (Stmt.close w.scope.stmts value).bound = bound w := by
    rw [Stmt.bound_close, hv.formed.bound_eq, List.append_nil]
    rfl
  refine ⟨(Stmt.scoped_close _ _).2 ⟨hlaid.stmts, (hv.code hw).inScope htracked⟩, ?_, ?_⟩
  · rw [hbound]
    exact hlaid.nodup
  · rw [hbound]
    refine fun v hvar htag => ?_
    exact Nat.lt_irrefl _ (Nat.lt_of_lt_of_le (hlaid.below v hvar) (hlaid.range _ htag).1)

end Region

lemma Session.Sound.functions {asks : Demands} {s : Session} (h : s.Sound asks) {f : FunctionDef}
    (hf : f ∈ s.functions) : f.body.Closed ⟨s.envs, asks⟩ := by
  obtain ⟨trace, hfind⟩ := Session.body?_eq_some_iff.1 (Session.mem_functions.1 hf).2.2
  exact h.points _ (Discipline.mem_of_find? hfind)

/-- The code of a program meets the demands. -/
theorem Call.Meets.program {asks : Demands} (hknown : ∀ key, asks.known key) {s : Session}
    (hs : s.Reached asks) {c : Call} (hc : c.Meets asks s) {p : Program}
    (hrun : (c.run s).1 = .ok p) : p.Meets asks c.env.vars := by
  obtain ⟨hformed, hsound⟩ := hs.sound hknown
  obtain ⟨value, w, hexec, rfl⟩ := Call.program_of_run hrun
  have hdoes := hc.does hknown hformed hsound
  rw [hexec] at hdoes
  have hready := hdoes.1
  have hvalue := hdoes.2 value rfl
  refine ⟨fun htyped n hn => ?_, fun htracked => hready.singleAssignment htracked hvalue,
    fun f hf => ⟨_, hready.sound.functions hf⟩⟩
  exact (Stmt.fits_close hready.fits (hvalue.code hready).fits n hn).1 htyped

/-- Variables of the type of a program can be in the environment of the next compilation. -/
lemma Call.Meets.program_ty {asks : Demands} (hknown : ∀ key, asks.known key) {s : Session}
    (hs : s.Reached asks) {c : Call} (hc : c.Meets asks s) {p : Program}
    (hrun : (c.run s).1 = .ok p) :
    p.ty.Formed ∧ p.ty.Sound ⟨(c.run s).2.envs, asks⟩ := by
  obtain ⟨hformed, hsound⟩ := hs.sound hknown
  rw [c.session_run s]
  obtain ⟨value, w, hexec, rfl⟩ := Call.program_of_run hrun
  have hvalue := (hc.does hknown hformed hsound).2 value (by rw [hexec])
  rw [Program.ty, Stmt.ty_close]
  exact ⟨hvalue.ty.formed, hvalue.ty.sound⟩

/-! ### Scopes -/

/-- Every variable has the type of its binder. Nothing is asked of single nodes. -/
def Demands.scoping : Demands := ⟨False, True, fun _ => True⟩

/-- A compilation from an environment of atomic values, in which each tag has one type, emits
closed code in single assignment: in the main code variables of the environment and bound ones are
used, in a function its parameters and bound ones, each at the type of its binder and after it;
no tag is bound twice or while it is in use from outside. What is bound in one branch of a split,
or in any other part of the code, stands in that part only. -/
theorem program_singleAssignment {s : Session} (hs : s.Reached .scoping) {c : Call}
    (hc : c.Meets .scoping s) {p : Program} (hrun : (c.run s).1 = .ok p) :
    (p.main.SingleAssignment c.env.vars ∧ p.main.Confined) ∧
      ∀ f ∈ p.functions, (f.body.inputs.map Var.tag).Nodup ∧
        f.body.term.SingleAssignment f.body.inputs ∧ f.body.term.Confined := by
  have hp := hc.program (fun _ => trivial) hs hrun
  refine ⟨⟨hp.tracked trivial, (hp.tracked trivial).confined⟩, fun f hf => ?_⟩
  obtain ⟨envs, hclosed⟩ := hp.functions f hf
  obtain ⟨hinputs, hbound, hdisjoint⟩ := List.nodup_append.1 (hclosed.nodup trivial)
  have hsingle : f.body.term.SingleAssignment f.body.inputs :=
    ⟨hclosed.inScope trivial, hbound,
      fun v hv htag => hdisjoint v.tag (List.mem_map_of_mem hv) v.tag htag rfl⟩
  exact ⟨hinputs, hsingle, hsingle.confined⟩

/-! ### A packed map from an earlier compilation

The first compilation packs a run-time value. The second one gets a packed value from outside,
reads it, and splits on what it reads. -/

namespace PackedInput

def pack : Build Expr := do
  let x ← Build.name "x"
  let value ← Build.var x
  let fields ← Build.op (.module (.create [x])) [value]
  Build.op (.layout (.pack .heap)) [fields]

def read : Build Expr := do
  let x ← Build.name "x"
  let m ← Build.name "m"
  let y ← Build.name "y"
  let packed ← Build.var m
  let test ← Build.op (.module (.getField x)) [packed]
  let one ← Build.lit (.string "one")
  let two ← Build.lit (.string "two")
  let yes ← Build.op .dynamize [one]
  let no ← Build.op .dynamize [two]
  let split ← Build.op .cond [test, yes, no]
  let result ← Build.var y
  let both ← Build.tuple [result, packed]
  Build.letIn y split (← Build.joinMethod both)

lemma does_pack : Build.Does True pack (Build.Fine True) := by
  refine (Build.does_name "x").bind fun x _ => ?_
  refine (Build.does_var x).bind fun value hvalue => ?_
  refine (Build.does_op₁ hvalue).bind fun fields hfields => ?_
  exact Build.does_op₁ hfields

lemma does_read : Build.Does True read (Build.Fine True) := by
  refine (Build.does_name "x").bind fun x _ => ?_
  refine (Build.does_name "m").bind fun m _ => ?_
  refine (Build.does_name "y").bind fun y _ => ?_
  refine (Build.does_var m).bind fun packed hpacked => ?_
  refine (Build.does_op₁ hpacked).bind fun test htest => ?_
  refine (Build.does_lit _).bind fun one hone => ?_
  refine (Build.does_lit _).bind fun two htwo => ?_
  refine (Build.does_op₁ hone).bind fun yes hyes => ?_
  refine (Build.does_op₁ htwo).bind fun no hno => ?_
  refine (Build.does_cond htest hyes hno).bind fun split hsplit => ?_
  refine (Build.does_var y).bind fun result hresult => ?_
  have hparts : True → Expr.AllSorted [result, packed] := fun h => ⟨hresult h, hpacked h, trivial⟩
  refine (Build.does_tuple hparts).bind fun both hboth => ?_
  exact (Build.does_op₁ hboth).bind fun _ hjoin => Build.does_letIn hsplit hjoin

/-- A compilation with one variable in its environment. -/
def withVar (act : Build Expr) (store : Store) (x : String) (v : Var) : Call :=
  { Call.of act store 30 with env := .plain [(((Build.name x).run store).1, .var v)] }

lemma meets_withVar {act : Build Expr} (h : Build.Does True act (Build.Fine True)) {s : Session}
    (hs : s.Formed) (x : String) {tag : Tag} (htag : tag < Tags.limit) {ty : Ty}
    (hformed : ty.Formed) {asks : Demands} (hsound : ty.Sound ⟨s.envs, asks⟩) :
    (withVar act s.store x ⟨tag, ty⟩).Meets asks s := by
  have hcall := Call.formed_of h hs.store 30
  refine ⟨⟨hcall.store, hcall.expr, ?_⟩, ?_, ?_, fun _ => ?_, fun _ => ?_⟩
  · exact ⟨List.pairwise_singleton .., hformed, trivial⟩
  · exact List.forall_mem_singleton.2 rfl
  · exact ⟨fun _ => hsound, trivial⟩
  · exact List.forall_mem_singleton.2 htag
  · exact Var.oneType_of_nodup (List.nodup_cons.2 ⟨List.not_mem_nil, List.nodup_nil⟩)

def first : Call := withVar pack {} "x" ⟨5, .bool⟩

/-- The session after the first compilation. -/
def session : Session := (first.run {}).2

/-- The type of the packed value. -/
def packedTy : Ty :=
  match (first.run {}).1 with
  | .ok p => p.ty
  | .error _ => .unit

def second : Call := withVar read session.store "m" ⟨7, packedTy⟩

lemma meets_first (asks : Demands) : first.Meets asks {} := by
  have hbool : Ty.bool.Formed ∧ Ty.bool.Sound ⟨{}, asks⟩ := ⟨trivial, trivial⟩
  exact meets_withVar does_pack (Session.formed_new {}) "x" (by decide) hbool.1 hbool.2

lemma reached (asks : Demands) : session.Reached asks := .run (.new {}) (meets_first asks)

lemma meets_second {asks : Demands} (hknown : ∀ key, asks.known key) :
    second.Meets asks session := by
  have hty : packedTy.Formed ∧ packedTy.Sound ⟨session.envs, asks⟩ := by
    unfold packedTy
    split
    · rename_i p hp
      exact (meets_first asks).program_ty hknown (.new {}) hp
    · exact ⟨trivial, trivial⟩
  exact meets_withVar does_read ((reached asks).sound hknown).1 "m" (by decide) hty.1 hty.2

end PackedInput

/-- The variable of the packed value is in use from outside in the second compilation, which emits
a split and a function. -/
theorem program_singleAssignment_packed : ∃ p,
    (PackedInput.second.run PackedInput.session).1 = .ok p ∧ p.main.bound.length = 5 ∧
      p.functions.length = 1 ∧ p.main.SingleAssignment PackedInput.second.env.vars := by
  obtain ⟨p, hp, hbound, hfunctions⟩ :=
    Call.exists_of_run (c := PackedInput.second) (s := PackedInput.session)
      (P := fun p => p.main.bound.length = 5 ∧ p.functions.length = 1) (by decide +kernel)
  exact ⟨p, hp, hbound, hfunctions, (program_singleAssignment (PackedInput.reached _)
    (PackedInput.meets_second fun _ => trivial) hp).1.1⟩

/-! ### Typing rules -/

/-- Every node obeys its rule. Nothing is asked of tags. -/
def Demands.typing : Demands := ⟨True, False, fun _ => True⟩

/-- A compilation from an environment of atomic values, whose boxes hold members of their unions,
emits only nodes that obey their typing rules. -/
theorem program_obeys {s : Session} (hs : s.Reached .typing) {c : Call} (hc : c.Meets .typing s)
    {p : Program} (hrun : (c.run s).1 = .ok p) :
    (∀ n ∈ p.main.nodes, n.Obeys) ∧ ∀ f ∈ p.functions, ∀ n ∈ f.body.term.nodes, n.Obeys := by
  have hp := hc.program (fun _ => trivial) hs hrun
  refine ⟨hp.typed trivial, fun f hf n hn => ?_⟩
  obtain ⟨envs, hclosed⟩ := hp.functions f hf
  exact (hclosed.fits n hn).1 trivial

/-- The split on what is read from the packed value, and all around it, obeys the rules. -/
theorem program_obeys_packed : ∃ p,
    (PackedInput.second.run PackedInput.session).1 = .ok p ∧ 5 < p.main.nodes.length ∧
      p.functions.length = 1 ∧ (∀ n ∈ p.main.nodes, n.Obeys) ∧
      ∀ f ∈ p.functions, ∀ n ∈ f.body.term.nodes, n.Obeys := by
  obtain ⟨p, hp, hnodes, hfunctions⟩ :=
    Call.exists_of_run (c := PackedInput.second) (s := PackedInput.session)
      (P := fun p => 5 < p.main.nodes.length ∧ p.functions.length = 1) (by decide +kernel)
  exact ⟨p, hp, hnodes, hfunctions, program_obeys (PackedInput.reached _)
    (PackedInput.meets_second fun _ => trivial) hp⟩

end Residual
