import Residual.Proofs.Eval.Layouts
import Residual.Proofs.Session.Emitted

/-!
Values as run-time data.

Before a value is stored or passed at run time, its literals and boxes are bound to variables; its
tuples and maps keep their shape. Main statement: the new value has the type of the old one, nothing
in it is left to bind, and the statements added bind the literals and boxes one by one, from left to
right, each box after what is in it. The step fails only where the tags run out.
-/

namespace Residual

open Eval

/-! ### Constants -/

namespace Term

/-- The term is bound to a variable when it becomes run-time data. -/
def isConstant : Term → Bool
  | .lit _ | .box _ _ => true
  | _ => false

/-- A box has a union or a recursive type. -/
def boxesMember : Term → Bool
  | .box _ (.union _) | .box _ (.recur _) => true
  | .box _ _ => false
  | _ => true

end Term

mutual

/-- The literals and boxes of a value from left to right, what is in a box before the box. -/
def Term.constants : Term → List Term
  | .lit l => [.lit l]
  | .box inner ty => inner.constants ++ [.box inner ty]
  | .tuple items => Term.constantsOfAll items
  | .map env _ => env.constants
  | _ => []

def Term.constantsOfAll : List Term → List Term
  | [] => []
  | t :: rest => t.constants ++ Term.constantsOfAll rest

def Env.constants : Env → List Term
  | .plain m => Env.constantsOfFields (fun _ => true) m
  | .restricted m used => Env.constantsOfFields used.contains m
  | .consed _ m => Env.constantsOfFields (fun _ => true) m

def Env.constantsOfFields (keep : Name → Bool) : List (Name × Term) → List Term
  | [] => []
  | (x, t) :: rest =>
    if keep x then t.constants ++ Env.constantsOfFields keep rest
    else Env.constantsOfFields keep rest

end

/-- The term is the value as run-time data: of the same type, with no literal and no box at any
depth, and left as it is when it is to become run-time data again. -/
structure Term.IsRuntime (r t : Term) : Prop where
  ty : r.ty = t.ty
  dynamic : ∀ n ∈ r.nodes, n.isConstant = false
  fixed : ∀ w, exec (toRuntime r) w = (.ok r, w)

/-- The statements bind the constants in order, to variables whose tags follow one another. What is
in a box has become run-time data by then. -/
inductive Loads (trace : Trace) : Tag → List Term → List Stmt → Prop where
  | nil {next : Tag} : Loads trace next [] []
  | lit {next : Tag} {l : Literal} {cs : List Term} {stmts : List Stmt} :
    Loads trace (next + 1) cs stmts →
    Loads trace next (.lit l :: cs) (.letIn ⟨next, .prim l.type⟩ (.lit l) trace :: stmts)
  | box {next : Tag} {inner r : Term} {ty : Ty} {cs : List Term} {stmts : List Stmt} :
    r.IsRuntime inner → Loads trace (next + 1) cs stmts →
    Loads trace next (.box inner ty :: cs) (.letIn ⟨next, ty⟩ (.box r ty) trace :: stmts)

namespace Loads

variable {trace : Trace} {next : Tag} {cs ds : List Term} {stmts others : List Stmt}

lemma length_eq (h : Loads trace next cs stmts) : stmts.length = cs.length := by
  induction h with
  | nil => rfl
  | lit _ ih | box _ _ ih => exact congrArg (· + 1) ih

lemma append (h : Loads trace next cs stmts) (h' : Loads trace (next + cs.length) ds others) :
    Loads trace next (cs ++ ds) (stmts ++ others) := by
  induction h with
  | nil => exact h'
  | lit _ ih =>
    rw [List.length_cons, ← Nat.add_assoc, Nat.add_right_comm] at h'
    exact .lit (ih h')
  | box hr _ ih =>
    rw [List.length_cons, ← Nat.add_assoc, Nat.add_right_comm] at h'
    exact .box hr (ih h')

end Loads

/-! ### Steps that load constants -/

/-- There are tags left for so many variables. -/
def Tags.HasRoom (s : Tags) (n : Nat) : Prop := n = 0 ∨ s.next + n ≤ Tags.limit

lemma Tags.hasRoom_add {s : Tags} {m n : Nat} :
    s.HasRoom (m + n) ↔ s.HasRoom m ∧ Tags.HasRoom ⟨s.next + m⟩ n := by
  simp only [HasRoom]
  grind

/-- The step binds the constants and changes nothing else. It fails only where there are too few
tags for them. -/
structure Binds {α : Type} (cs : List Term) (act : Eval α) (Q : α → Prop) : Prop where
  succeeds : ∀ w, w.scope.tags.HasRoom cs.length → ∃ a stmts, exec act w = (.ok a, w.emits stmts) ∧
    Loads w.scope.trace w.scope.tags.next cs stmts ∧ Q a
  stops : ∀ w, ¬ w.scope.tags.HasRoom cs.length → (exec act w).1 = .error .tagsExhausted

namespace Binds

variable {α β : Type} {cs ds : List Term} {Q : α → Prop} {R : β → Prop}

lemma pure {a : α} (h : Q a) : Binds [] (Pure.pure a : Eval α) Q :=
  ⟨fun w _ => ⟨a, [], by rw [World.emits_nil]; rfl, .nil, h⟩,
    fun _ hfull => absurd (.inl rfl) hfull⟩

/-- The constants of one step come before those of the next. -/
theorem bind {m : Eval α} {f : α → Eval β} (hm : Binds cs m Q)
    (hf : ∀ a, Q a → Binds ds (f a) R) : Binds (cs ++ ds) (m >>= f) R := by
  constructor
  · intro w hroom
    rw [List.length_append, Tags.hasRoom_add] at hroom
    obtain ⟨a, stmts, hrun, hloads, ha⟩ := hm.succeeds w hroom.1
    rw [← hloads.length_eq] at hroom
    obtain ⟨b, others, hrun', hloads', hb⟩ := (hf a ha).succeeds (w.emits stmts) hroom.2
    refine ⟨b, stmts ++ others, ?_, hloads.append (hloads.length_eq ▸ hloads'), hb⟩
    rw [exec_bind_of_ok hrun, hrun', World.emits_emits]
  · intro w hfull
    by_cases hfirst : w.scope.tags.HasRoom cs.length
    · obtain ⟨a, stmts, hrun, hloads, ha⟩ := hm.succeeds w hfirst
      rw [exec_bind_of_ok hrun]
      refine (hf a ha).stops _ fun hthen => hfull ?_
      rw [List.length_append, Tags.hasRoom_add]
      exact ⟨hfirst, hloads.length_eq ▸ hthen⟩
    · rw [exec_bind, show exec m w = (.error .tagsExhausted, (exec m w).2) from
        Prod.ext (hm.stops w hfirst) rfl]

lemma imp {act : Eval α} {P : α → Prop} (h : Binds cs act Q) (hQ : ∀ a, Q a → P a) :
    Binds cs act P :=
  ⟨fun w hroom => (h.succeeds w hroom).imp fun a => .imp fun _ hs => ⟨hs.1, hs.2.1, hQ a hs.2.2⟩,
    h.stops⟩

/-- A step that only rearranges the result. -/
theorem map {m : Eval α} {f : α → β} (hm : Binds cs m Q) (hf : ∀ a, Q a → R (f a)) :
    Binds cs (m >>= fun a => Pure.pure (f a)) R := by
  have := hm.bind fun a ha => .pure (hf a ha)
  rwa [List.append_nil] at this

end Binds

/-- A constant is bound to one variable. -/
lemma binds_bindResult {t c : Term} {ty : Ty} (hdata : ty.isUnit = false)
    (hloads : ∀ trace next, Loads trace next [c] [.letIn ⟨next, ty⟩ t trace]) :
    Binds [c] (bindResult t ty) fun r => ∃ tag, r = .var ⟨tag, ty⟩ := by
  constructor
  · intro w hroom
    have hlt : w.scope.tags.next < Tags.limit := by
      rcases hroom with hnone | hroom
      · cases hnone
      · exact hroom
    exact ⟨_, _, exec_bindResult_of_data hdata t hlt, hloads _ _, _, rfl⟩
  · intro w hfull
    have hnone : w.scope.tags.fresh? = none := if_neg fun hlt => hfull (.inr hlt)
    rw [bindResult, hdata, if_neg Bool.false_ne_true, freshVar, freshTag]
    simp only [bind_assoc, exec_bind, exec_getScope, hnone, exec_throw]

lemma Term.isRuntime_var (tag : Tag) {t : Term} : (Term.var ⟨tag, t.ty⟩).IsRuntime t :=
  ⟨Term.ty_var _, fun _ hn => List.mem_singleton.1 hn ▸ rfl, fun _ => rfl⟩

mutual

/-- A value becomes run-time data: its constants are bound, and nothing is left to bind. -/
lemma binds_toRuntime (t : Term) (hatomic : ∀ n ∈ t.nodes, n.isCode = false)
    (hboxes : ∀ n ∈ t.nodes, n.boxesMember = true) :
    Binds t.constants (toRuntime t) fun r => r.IsRuntime t := by
  match t with
  -- Literals and boxes are bound; a box after what is in it.
  | .lit l =>
    refine (binds_bindResult rfl fun _ _ => .lit .nil).imp fun r hr => ?_
    obtain ⟨tag, rfl⟩ := hr
    exact Term.isRuntime_var tag (t := .lit l)
  | .box inner ty =>
    have hdata : ty.isUnit = false := by
      have hmember := hboxes _ (List.mem_cons_self ..)
      cases ty <;> first | rfl | cases hmember
    refine (binds_toRuntime inner (fun n hn => hatomic n (List.mem_cons_of_mem _ hn))
      fun n hn => hboxes n (List.mem_cons_of_mem _ hn)).bind fun r hr => ?_
    refine (binds_bindResult hdata fun _ _ => .box hr .nil).imp fun v hv => ?_
    obtain ⟨tag, rfl⟩ := hv
    exact Term.isRuntime_var tag (t := .box inner ty)
  -- Tuples and maps stay, and so do their parts the second time.
  | .tuple items =>
    refine (binds_allToRuntime items (fun n hn => hatomic n (List.mem_cons_of_mem _ hn))
      fun n hn => hboxes n (List.mem_cons_of_mem _ hn)).map fun rs ⟨hty, hdynamic, hfixed⟩ => ?_
    refine ⟨congrArg Ty.list hty, List.forall_mem_cons.2 ⟨rfl, hdynamic⟩, fun w => ?_⟩
    rw [toRuntime, exec_bind_of_ok (hfixed w)]
    rfl
  | .map env kind =>
    refine (binds_envToRuntime env (fun n hn => hatomic n (List.mem_cons_of_mem _ hn))
      fun n hn => hboxes n (List.mem_cons_of_mem _ hn)).map fun m ⟨hty, hdynamic, hfixed⟩ => ?_
    refine ⟨congrArg (Ty.map · kind) hty, List.forall_mem_cons.2 ⟨rfl, hdynamic⟩, fun w => ?_⟩
    rw [toRuntime, envToRuntime, exec_bind_of_ok (hfixed w)]
    rfl
  | .type _ | .var _ =>
    exact .pure ⟨rfl, fun n hn => List.mem_singleton.1 hn ▸ rfl, fun _ => rfl⟩
  -- Code is no value.
  | .letIn _ _ _ _ | .state _ _ _ | .op _ _ _ | .call _ _ _ _ =>
    cases hatomic _ (List.mem_cons_self ..)
termination_by structural t

lemma binds_allToRuntime (ts : List Term)
    (hatomic : ∀ n ∈ Term.nodesOfAll ts, n.isCode = false)
    (hboxes : ∀ n ∈ Term.nodesOfAll ts, n.boxesMember = true) :
    Binds (Term.constantsOfAll ts) (allToRuntime ts) fun rs =>
      Term.tys rs = Term.tys ts ∧ (∀ n ∈ Term.nodesOfAll rs, n.isConstant = false) ∧
        ∀ w, exec (allToRuntime rs) w = (.ok rs, w) := by
  match ts with
  | [] => exact .pure ⟨rfl, fun _ hn => absurd hn List.not_mem_nil, fun _ => rfl⟩
  | t :: rest =>
    obtain ⟨hat, hatrest⟩ := List.forall_mem_append.1 hatomic
    obtain ⟨hbt, hbrest⟩ := List.forall_mem_append.1 hboxes
    refine (binds_toRuntime t hat hbt).bind fun r hr => ?_
    refine (binds_allToRuntime rest hatrest hbrest).map fun rs ⟨hty, hdynamic, hfixed⟩ => ?_
    refine ⟨?_, List.forall_mem_append.2 ⟨hr.dynamic, hdynamic⟩, fun w => ?_⟩
    · rw [Term.tys, Term.tys, hr.ty, hty]
    · rw [allToRuntime, exec_bind_of_ok (hr.fixed w), exec_bind_of_ok (hfixed w)]
      rfl
termination_by structural ts

lemma binds_envToRuntime (env : Env) (hatomic : ∀ n ∈ env.nodes, n.isCode = false)
    (hboxes : ∀ n ∈ env.nodes, n.boxesMember = true) :
    Binds env.constants (envToRuntime env) fun m =>
      Term.envTys (.plain m) = Term.envTys env ∧
        (∀ n ∈ (Env.plain m).nodes, n.isConstant = false) ∧
        ∀ w, exec (fieldsToRuntime (fun _ => true) m) w = (.ok m, w) := by
  match env with
  | .plain m => exact binds_fieldsToRuntime _ m hatomic hboxes
  | .restricted m used => exact binds_fieldsToRuntime _ m hatomic hboxes
  | .consed _ m => exact binds_fieldsToRuntime _ m hatomic hboxes
termination_by structural env

lemma binds_fieldsToRuntime (keep : Name → Bool) (m : List (Name × Term))
    (hatomic : ∀ n ∈ Env.nodesOfFields keep m, n.isCode = false)
    (hboxes : ∀ n ∈ Env.nodesOfFields keep m, n.boxesMember = true) :
    Binds (Env.constantsOfFields keep m) (fieldsToRuntime keep m) fun rs =>
      Term.fieldTys (fun _ => true) rs = Term.fieldTys keep m ∧
        (∀ n ∈ Env.nodesOfFields (fun _ => true) rs, n.isConstant = false) ∧
        ∀ w, exec (fieldsToRuntime (fun _ => true) rs) w = (.ok rs, w) := by
  match m with
  | [] => exact .pure ⟨rfl, fun _ hn => absurd hn List.not_mem_nil, fun _ => rfl⟩
  | (x, t) :: rest =>
    by_cases hx : keep x = true
    · rw [Env.nodesOfFields, if_pos hx] at hatomic hboxes
      rw [Env.constantsOfFields, fieldsToRuntime, Term.fieldTys, if_pos hx, if_pos hx, if_pos hx]
      obtain ⟨hat, hatrest⟩ := List.forall_mem_append.1 hatomic
      obtain ⟨hbt, hbrest⟩ := List.forall_mem_append.1 hboxes
      refine (binds_toRuntime t hat hbt).bind fun r hr => ?_
      refine (binds_fieldsToRuntime keep rest hatrest hbrest).map
        fun rs ⟨hty, hdynamic, hfixed⟩ => ?_
      refine ⟨?_, List.forall_mem_append.2 ⟨hr.dynamic, hdynamic⟩, fun w => ?_⟩
      · rw [Term.fieldTys, if_pos rfl, hr.ty, hty]
      · rw [fieldsToRuntime, if_pos rfl, exec_bind_of_ok (hr.fixed w),
          exec_bind_of_ok (hfixed w)]
        rfl
    · rw [Env.nodesOfFields, if_neg hx] at hatomic hboxes
      rw [Env.constantsOfFields, fieldsToRuntime, Term.fieldTys, if_neg hx, if_neg hx, if_neg hx]
      exact binds_fieldsToRuntime keep rest hatomic hboxes
termination_by structural m

end

/-- Where there are tags for all constants of the value, it becomes run-time data: nothing happens
but that the constants are bound, each once and in order. Where there are too few, the step stops
for that reason. -/
theorem toRuntime_loads_constants (t : Term) (hatomic : ∀ n ∈ t.nodes, n.isCode = false)
    (hboxes : ∀ n ∈ t.nodes, n.boxesMember = true) (w : World) :
    (w.scope.tags.HasRoom t.constants.length →
      ∃ r stmts, exec (toRuntime t) w = (.ok r, w.emits stmts) ∧
        Loads w.scope.trace w.scope.tags.next t.constants stmts ∧ r.IsRuntime t) ∧
    (¬ w.scope.tags.HasRoom t.constants.length →
      (exec (toRuntime t) w).1 = .error .tagsExhausted) :=
  ⟨(binds_toRuntime t hatomic hboxes).succeeds w, (binds_toRuntime t hatomic hboxes).stops w⟩

namespace NestedConstants

def ty : Ty := .union [.prim .string, .list [.prim .bool, .prim .char]]

/-- A literal beside a module that shows one of its two fields. -/
def value : Term :=
  .tuple [.lit (.string "a"), .map (.restricted
    [(⟨1⟩, .box (.tuple [.lit (.bool true), .var ⟨3, .prim .char⟩]) ty), (⟨2⟩, .lit (.bool false))]
    [⟨1⟩]) .module]

def world (next : Tag) : World := ⟨{}, { env := .empty, tags := ⟨next⟩ }⟩

end NestedConstants

open NestedConstants in
/-- The literal in the box is bound before the box, and the hidden field is not bound. One tag too
few is too few. -/
theorem toRuntime_nestedConstants :
    value.constants = [.lit (.string "a"), .lit (.bool true),
      .box (.tuple [.lit (.bool true), .var ⟨3, .prim .char⟩]) ty] ∧
    (∃ r stmts, exec (toRuntime value) (world 4) = (.ok r, (world 4).emits stmts) ∧
      Loads {} 4 value.constants stmts ∧ r.IsRuntime value) ∧
    (exec (toRuntime value) (world (Tags.limit - 2))).1 = .error .tagsExhausted := by
  have hatomic : ∀ n ∈ value.nodes, n.isCode = false := by decide
  have hboxes : ∀ n ∈ value.nodes, n.boxesMember = true := by decide
  exact ⟨rfl, (toRuntime_loads_constants value hatomic hboxes (world 4)).1 (.inr (by decide)),
    (toRuntime_loads_constants value hatomic hboxes (world (Tags.limit - 2))).2 (by
      rintro (hnone | hroom)
      · cases hnone
      · exact absurd hroom (by decide))⟩

end Residual
