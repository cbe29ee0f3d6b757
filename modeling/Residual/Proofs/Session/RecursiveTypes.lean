import Residual.Proofs.Eval.Definitions
import Residual.Proofs.Session.Emitted

/-!
Recursive types in compiled programs.

While a type join point is in evaluation, its own type stands for the result. Main statement: a
recursive type occurs in a program only if the compilation evaluated the body of its join point,
and as long as nothing that was done is forgotten it is defined there exactly if the finished
type refers to itself. It need not: other bodies may refer to it by then.
-/

namespace Residual

open Eval

/-! ### Types in which a recursive type does not occur -/

section Mentions

variable {g : Ground} {key : Key}

mutual

/-- In a sound type only known recursive types occur. -/
lemma Ty.Sound.mentions_eq (hkey : ¬ g.asks.known key) (t : Ty) (h : t.Sound g) :
    t.mentions key = false := by
  match t with
  | .prim _ | .lit _ => rfl
  | .list items | .union items => exact Ty.AllSound.anyMentions_eq hkey items h
  | .map fields _ => exact Ty.FieldsSound.fieldsMention_eq hkey fields h
  | .layout _ env _ => exact Env.Sound.typeMentions_eq hkey env h.1
  | .closure dom range =>
    rw [Ty.mentions, Ty.Sound.mentions_eq hkey dom h.1, Ty.Sound.mentions_eq hkey range h.2]
    rfl
  | .recur k =>
    rw [Ty.mentions, beq_eq_false_iff_ne]
    rintro rfl
    exact hkey h
  | .array _ elem => exact Ty.Sound.mentions_eq hkey elem h
  | .foreign _ parts => exact ForeignPart.AllSound.anyMentions_eq hkey parts h
termination_by structural t

lemma Ty.AllSound.anyMentions_eq (hkey : ¬ g.asks.known key) (ts : List Ty)
    (h : Ty.AllSound g ts) : Ty.anyMentions key ts = false := by
  match ts with
  | [] => rfl
  | t :: rest =>
    rw [Ty.anyMentions, Ty.Sound.mentions_eq hkey t h.1, Ty.AllSound.anyMentions_eq hkey rest h.2]
    rfl
termination_by structural ts

lemma Ty.FieldsSound.fieldsMention_eq (hkey : ¬ g.asks.known key) (m : List (Name × Ty))
    (h : Ty.FieldsSound g m) : Ty.fieldsMention key m = false := by
  match m with
  | [] => rfl
  | (x, t) :: rest =>
    rw [Ty.fieldsMention, Ty.Sound.mentions_eq hkey t h.1,
      Ty.FieldsSound.fieldsMention_eq hkey rest h.2]
    rfl
termination_by structural m

lemma ForeignPart.Sound.mentions_eq (hkey : ¬ g.asks.known key) (p : ForeignPart)
    (h : p.Sound g) : p.mentions key = false := by
  match p with
  | .text _ => rfl
  | .type t => exact Ty.Sound.mentions_eq hkey t h
termination_by structural p

lemma ForeignPart.AllSound.anyMentions_eq (hkey : ¬ g.asks.known key) (ps : List ForeignPart)
    (h : ForeignPart.AllSound g ps) : ForeignPart.anyMentions key ps = false := by
  match ps with
  | [] => rfl
  | p :: rest =>
    rw [ForeignPart.anyMentions, ForeignPart.Sound.mentions_eq hkey p h.1,
      ForeignPart.AllSound.anyMentions_eq hkey rest h.2]
    rfl
termination_by structural ps

lemma Term.Sound.typeMentions_eq (hkey : ¬ g.asks.known key) (t : Term) (h : t.Sound g true) :
    t.typeMentions key = false := by
  match t with
  | .type t => exact Ty.Sound.mentions_eq hkey t h
  | .var ⟨_, t⟩ => exact Ty.Sound.mentions_eq hkey t h
  | .tuple items => exact Term.AllSound.anyTypeMentions_eq hkey items h
  | .map env _ => exact Env.Sound.typeMentions_eq hkey env h
  | .box _ ty => exact Ty.Sound.mentions_eq hkey ty h.2.1
  | .lit _ => rfl
  | .op _ _ ty =>
    rw [Term.typeMentions, h.2]
    rfl
termination_by structural t

lemma Term.AllSound.anyTypeMentions_eq (hkey : ¬ g.asks.known key) (ts : List Term)
    (h : Term.AllSound g true ts) : Term.anyTypeMentions key ts = false := by
  match ts with
  | [] => rfl
  | t :: rest =>
    rw [Term.anyTypeMentions, Term.Sound.typeMentions_eq hkey t h.1,
      Term.AllSound.anyTypeMentions_eq hkey rest h.2]
    rfl
termination_by structural ts

lemma Env.Sound.typeMentions_eq (hkey : ¬ g.asks.known key) (env : Env) (h : env.Sound g true) :
    env.typeMentions key = false := by
  match env with
  | .plain m => exact Env.FieldsSound.fieldsMention_eq hkey _ m h
  | .restricted m used => exact Env.FieldsSound.fieldsMention_eq hkey _ m h
  | .consed _ m => exact Env.FieldsSound.fieldsMention_eq hkey _ m h.2
termination_by structural env

lemma Env.FieldsSound.fieldsMention_eq (hkey : ¬ g.asks.known key) (keep : Name → Bool)
    (m : List (Name × Term)) (h : Env.FieldsSound g true keep m) :
    Env.fieldsMention key keep m = false := by
  match m with
  | [] => rfl
  | (x, t) :: rest =>
    rw [Env.fieldsMention, Env.FieldsSound.fieldsMention_eq hkey keep rest h.2, Bool.or_false]
    by_cases hx : keep x = true
    · rw [Term.Sound.typeMentions_eq hkey t (h.1 hx), Bool.and_false]
    · rw [Bool.eq_false_iff.2 hx, Bool.false_and]
termination_by structural m

end

end Mentions

/-! ### Refusing a body -/

/-- Evaluation that gives up where it would evaluate the body of the type join point. -/
def Eval.evalRefusing (key : Key) : Nat → Expr → Eval Term
  | 0, _ => throw .outOfFuel
  | fuel + 1, e => do
    if (← getScope).owner = some ⟨.type, key⟩ then throw .outOfFuel
    else step (evalRefusing key fuel) e

/-- The compilation comes to evaluate the body of the type join point: to refuse it makes a
difference to the run. -/
def Call.Enters (c : Call) (s : Session) (key : Key) : Prop :=
  exec (evalRefusing key c.fuel c.code) (c.world s) ≠ exec (eval c.fuel c.code) (c.world s)

/-- All recursive types are known but one. -/
def Demands.without (key : Key) : Demands := ⟨False, False, (· ≠ key)⟩

namespace Region

lemma evaluator_evalRefusing (key : Key) (fuel : Nat) :
    Evaluator (.without key) (evalRefusing key fuel) := by
  induction fuel with
  | zero => exact ⟨fun i _ e w _ => .throw _, fun _ _ e w _ => ⟨_, rfl⟩⟩
  | succ fuel ih =>
    refine ⟨fun i hi e w he => .getScope ?_, fun k hk e w howner => ?_⟩
    · rw [← hi] at ih
      split
      · exact .throw _
      · exact does_step ih he
    · obtain rfl : k = key := Classical.not_not.1 hk
      refine ⟨.outOfFuel, ?_⟩
      rw [evalRefusing, exec_bind_of_ok (exec_getScope w), if_pos howner]
      rfl

end Region

/-! ### Programs -/

namespace Program

/-- All types of a program: its own, those in the main code and in the functions, and those in the
definitions of its recursive types. -/
def types (p : Program) : List Ty :=
  p.ty :: p.main.nodes.flatMap Term.annotations ++
    (p.functions.flatMap fun f =>
      f.body.ty :: f.body.inputs.map Var.ty ++ f.body.term.nodes.flatMap Term.annotations) ++
    p.recTypes.map Prod.snd

/-- The recursive type occurs in the program. -/
def Mentions (p : Program) (key : Key) : Prop := ∃ ty ∈ p.types, ty.mentions key = true

instance (p : Program) (key : Key) : Decidable (p.Mentions key) :=
  inferInstanceAs (Decidable (∃ ty ∈ p.types, ty.mentions key = true))

/-- The program has a definition of the recursive type. -/
def Defines (p : Program) (key : Key) : Prop := ∃ e ∈ p.recTypes, e.1 = key

instance (p : Program) (key : Key) : Decidable (p.Defines key) :=
  inferInstanceAs (Decidable (∃ e ∈ p.recTypes, e.1 = key))

lemma forall_mem_types {p : Program} {P : Ty → Prop} (hty : P p.ty)
    (hmain : ∀ n ∈ p.main.nodes, ∀ ty ∈ n.annotations, P ty)
    (hfunctions : ∀ f ∈ p.functions, P f.body.ty ∧ (∀ v ∈ f.body.inputs, P v.ty) ∧
      ∀ n ∈ f.body.term.nodes, ∀ ty ∈ n.annotations, P ty)
    (hrec : ∀ e ∈ p.recTypes, P e.2) : ∀ ty ∈ p.types, P ty := by
  refine List.forall_mem_append.2 ⟨List.forall_mem_append.2
    ⟨List.forall_mem_cons.2 ⟨hty, List.forall_mem_flatMap.2 hmain⟩,
      List.forall_mem_flatMap.2 fun f hf => ?_⟩, List.forall_mem_map.2 hrec⟩
  obtain ⟨hty, hinputs, hnodes⟩ := hfunctions f hf
  exact List.forall_mem_append.2 ⟨List.forall_mem_cons.2 ⟨hty, List.forall_mem_map.2 hinputs⟩,
    List.forall_mem_flatMap.2 hnodes⟩

end Program

lemma Session.mem_definedTypes_iff {s : Session} {key : Key} {ty : Ty} :
    (key, ty) ∈ s.definedTypes ↔ ⟨.type, key⟩ ∈ s.finished ∧ s.recType? key = some ty := by
  unfold definedTypes
  rw [List.mem_filterMap]
  constructor
  · rintro ⟨⟨kind, k⟩, hp, h⟩
    split at h
    · rename_i hkind
      obtain ⟨ty', hty, heq⟩ := Option.map_eq_some_iff.1 h
      cases heq
      cases hkind
      exact ⟨hp, hty⟩
    · cases h
  · rintro ⟨hp, hty⟩
    exact ⟨_, hp, by rw [if_pos rfl, hty]; rfl⟩

lemma Session.mem_recTypes {s : Session} {e : Key × Ty} (h : e ∈ s.definedTypes) :
    e ∈ s.recTypes := by
  obtain ⟨before, after, heq, -⟩ := List.lookup_eq_some_iff.1 (mem_definedTypes_iff.1 h).2
  rw [heq]
  simp

/-! ### Definitions -/

lemma Session.recorded_new (store : Store) (settings : Settings) :
    Session.Recorded { store, settings } := by
  refine ⟨fun key ty h => ?_, Nat.le_refl 0, fun _ key ty h => ?_⟩
  · cases h
  · obtain ⟨⟨body, hbody, -⟩, -⟩ := h
    cases hbody

/-- A compilation of a new session leaves a consistent table and its definitions behind. -/
lemma Call.recorded_run (c : Call) (settings : Settings) :
    (c.run { settings }).2.Consistent [] ∧ (c.run { settings }).2.Recorded := by
  have hstart : (c.world { settings }).Recorded [] :=
    ⟨(Session.consistent_new {} settings).inStack c, Session.recorded_new _ settings⟩
  have hend := (Discipline.does_eval (D := .definitions) (i := []) c.fuel (e := c.code)
    (fun h => h.elim) ⟨hstart, fun h => h.elim⟩).2.1.1
  rw [c.session_run]
  exact ⟨hend.inStack.table, hend.types⟩

/-- A recursive type is defined in the program of a new session exactly if its join point is done
with a type that refers to itself, as long as none that was done was forgotten. -/
lemma Call.defines_iff {settings : Settings} {c : Call} {p : Program}
    (hrun : (c.run { settings }).1 = .ok p) (hkept : (c.run { settings }).2.Kept) (key : Key) :
    p.Defines key ↔ ∃ ty, (c.run { settings }).2.Closes key ty := by
  obtain ⟨htable, hrecorded⟩ := c.recorded_run settings
  have hp : p.recTypes = (c.run { settings }).2.definedTypes := by
    obtain ⟨value, w, hexec, rfl⟩ := Call.program_of_run hrun
    rw [c.session_run, hexec]
  unfold Program.Defines
  rw [hp]
  constructor
  · rintro ⟨⟨k, ty⟩, he, rfl⟩
    exact ⟨ty, hrecorded.closes k ty (Session.mem_definedTypes_iff.1 he).2⟩
  · rintro ⟨ty, hty⟩
    have hfinished := (htable.done _).2 (Session.done_iff.2 (hty.1.imp fun _ h => h.1))
    exact ⟨(key, ty), Session.mem_definedTypes_iff.2
      ⟨hfinished, hrecorded.defined hkept key ty hty⟩, rfl⟩

/-- A compilation without an environment meets all demands. -/
lemma Call.Formed.meets_empty {c : Call} (h : c.Formed) (henv : c.env = .empty) (asks : Demands)
    (s : Session) : c.Meets asks s := by
  refine ⟨h, ?_, ?_, ?_, ?_⟩ <;> rw [henv]
  · exact fun _ hn => absurd hn List.not_mem_nil
  · trivial
  · exact fun _ _ hv => absurd hv List.not_mem_nil
  · exact fun _ _ hv => absurd hv List.not_mem_nil

/-- In a program of a new session, compiled without an environment, a recursive type occurs only
if the compilation evaluated the body of its join point. -/
lemma entered_of_mentions (settings : Settings) (c : Call) (hc : c.Formed)
    (henv : c.env = .empty) (p : Program) (hrun : (c.run { settings }).1 = .ok p) (key : Key)
    (hkey : p.Mentions key) : c.Enters { settings } key := by
  intro hsame
  obtain ⟨value, w, hexec, rfl⟩ := Call.program_of_run hrun
  have hmeets : c.Meets (.without key) { settings } := hc.meets_empty henv _ _
  have hgood := (Region.evaluator_evalRefusing key c.fuel).good (c.region (.without key)) rfl c.code
    _ hc.filtered.1 (hmeets.ready (Session.formed_new settings) (Session.sound_new _ settings))
  rw [hsame, hexec] at hgood
  obtain ⟨hready, -, hvalue⟩ := hgood
  have hv := hvalue value rfl
  -- All types of the program are sound where the recursive type is not known.
  have hsound : ∀ ty ∈ Program.types ⟨Stmt.close w.scope.stmts value, w.session.functions,
      w.session.definedTypes⟩, ty.Sound ⟨w.session.envs, .without key⟩ := by
    refine Program.forall_mem_types ?_ ?_ (fun f hf => ?_) fun e he => ?_
    · rw [Program.ty, Stmt.ty_close]
      exact hv.ty.sound
    · exact fun n hn => (Stmt.fits_close hready.fits (hv.code hready).fits n hn).2
    · have hclosed := hready.sound.functions hf
      exact ⟨hclosed.ty, hclosed.inputs, fun n hn => (hclosed.fits n hn).2⟩
    · exact hready.sound.recTypes e (Session.mem_recTypes he)
  have hunknown : ¬ (Demands.without key).known key := fun h => h rfl
  obtain ⟨ty, hty, hmentions⟩ := hkey
  rw [(hsound ty hty).mentions_eq hunknown] at hmentions
  cases hmentions

/-- In a program of a new session, compiled without an environment, a recursive type occurs only
if the compilation evaluated the body of its join point. As long as no join point that was done
was forgotten, it is defined exactly if its join point is done with a type that refers to
itself. -/
theorem defines_iff_of_mentions (settings : Settings) (c : Call) (hc : c.Formed)
    (henv : c.env = .empty) (p : Program) (hrun : (c.run { settings }).1 = .ok p) (key : Key)
    (hkey : p.Mentions key) :
    c.Enters { settings } key ∧ ((c.run { settings }).2.Kept →
      (p.Defines key ↔ ∃ ty, (c.run { settings }).2.Closes key ty)) :=
  ⟨entered_of_mentions settings c hc henv p hrun key hkey,
    fun hkept => c.defines_iff hrun hkept key⟩

/-! ### A type of lists -/

namespace ListType

def program : Build Expr := do
  let list ← Build.name "list"
  let elem ← Build.name "elem"
  let nil ← Build.op (.type .literal) [← Build.lit (.string "nil")]
  let head ← Build.var elem
  let tail ← Build.apply (← Build.var list) (← Build.var elem)
  let either ← Build.op (.type .union) [nil, ← Build.tuple [head, tail]]
  let loop ← Build.expr (.recFunction list elem (← Build.joinType either))
  Build.apply loop (← Build.lit (.string "element"))

lemma does_program : Build.Does True program (Build.Fine True) := by
  refine (Build.does_name "list").bind fun list _ => ?_
  refine (Build.does_name "elem").bind fun elem _ => ?_
  refine (Build.does_lit _).bind fun name hname => ?_
  refine (Build.does_op₁ hname).bind fun nil hnil => ?_
  refine (Build.does_var elem).bind fun head hhead => ?_
  refine (Build.does_var list).bind fun callee hcallee => ?_
  refine (Build.does_var elem).bind fun arg harg => ?_
  refine (Build.does_op₂ hcallee harg).bind fun tail htail => ?_
  have hparts : True → Expr.AllSorted [head, tail] := fun h => ⟨hhead h, htail h, trivial⟩
  refine (Build.does_tuple hparts).bind fun cons hcons => ?_
  refine (Build.does_op₂ hnil hcons).bind fun either heither => ?_
  refine (Build.does_op₁ heither).bind fun body hbody => ?_
  refine (Build.does_expr (.recFunction list elem body) hbody).bind fun loop hloop => ?_
  exact (Build.does_lit _).bind fun _ helem => Build.does_op₂ hloop helem

def call : Call := .of program {} 30

end ListType

/-- The type of lists is defined. -/
theorem defines_iff_of_mentions_list : ∃ p,
    (ListType.call.run {}).1 = .ok p ∧ p.Mentions ⟨0⟩ ∧ (ListType.call.run {}).2.Kept ∧
      ListType.call.Enters {} ⟨0⟩ ∧ p.Defines ⟨0⟩ ∧
      ∃ ty, (ListType.call.run {}).2.Closes ⟨0⟩ ty := by
  obtain ⟨p, hp, hmentions, hdefines, hkept⟩ :=
    Call.exists_of_run (c := ListType.call) (s := {})
      (P := fun p => p.Mentions ⟨0⟩ ∧ p.Defines ⟨0⟩ ∧ (ListType.call.run {}).2.Kept)
      (by decide +kernel)
  have hformed := Call.formed_of ListType.does_program (Session.formed_new {}).store 30
  obtain ⟨henters, hiff⟩ :=
    defines_iff_of_mentions {} ListType.call hformed rfl p hp ⟨0⟩ hmentions
  exact ⟨p, hp, hmentions, hkept, henters, hdefines, (hiff hkept).1 hdefines⟩

/-! ### A recursive type without a definition

A type join point refers to itself inside a method, whose result it does not use. The method is
done at the recursive type, and then the type turns out to be that of a text. -/

namespace UnusedReference

def program : Build Expr := do
  let t ← Build.name "t"
  let x ← Build.name "x"
  let y ← Build.name "y"
  let again ← Build.joinMethod (← Build.apply (← Build.var t) (← Build.var x))
  let result ← Build.lit (.string "done")
  let body ← Build.joinType (← Build.letIn y again result)
  let loop ← Build.expr (.recFunction t x body)
  Build.apply loop (← Build.unit)

lemma does_program : Build.Does True program (Build.Fine True) := by
  refine (Build.does_name "t").bind fun t _ => ?_
  refine (Build.does_name "x").bind fun x _ => ?_
  refine (Build.does_name "y").bind fun y _ => ?_
  refine (Build.does_var t).bind fun callee hcallee => ?_
  refine (Build.does_var x).bind fun arg harg => ?_
  refine (Build.does_op₂ hcallee harg).bind fun call hcall => ?_
  refine (Build.does_op₁ hcall).bind fun again hagain => ?_
  refine (Build.does_lit _).bind fun result hresult => ?_
  refine (Build.does_letIn hagain hresult).bind fun rest hrest => ?_
  refine (Build.does_op₁ hrest).bind fun body hbody => ?_
  refine (Build.does_expr (.recFunction t x body) hbody).bind fun loop hloop => ?_
  exact Build.does_unit.bind fun _ hunit => Build.does_op₂ hloop hunit

def call : Call := .of program {} 30

lemma formed_call : call.Formed :=
  Call.formed_of does_program (Session.formed_new {}).store 30

lemma run_call : ∃ p, (call.run {}).1 = .ok p ∧ p.Mentions ⟨0⟩ ∧ ¬ p.Defines ⟨0⟩ ∧
    (call.run {}).2.Kept :=
  Call.exists_of_run (by decide +kernel)

end UnusedReference

/-- A recursive type occurs in a program that does not define it, although nothing that was done
was forgotten. -/
theorem exists_undefined_recursive : ∃ (c : Call) (p : Program) (key : Key),
    c.Formed ∧ c.env = .empty ∧ (c.run {}).1 = .ok p ∧ p.Mentions key ∧ ¬ p.Defines key ∧
      (c.run {}).2.Kept := by
  obtain ⟨p, hp, hmentions, hdefines, hkept⟩ := UnusedReference.run_call
  exact ⟨UnusedReference.call, p, ⟨0⟩, UnusedReference.formed_call, rfl, hp, hmentions, hdefines,
    hkept⟩

end Residual
