import Residual.Proofs.Eval.Layouts
import Residual.Proofs.Session.Emitted

/-!
Shape tests.

A test of the shape of a value looks at its type only, an access to a part of it looks at the value.
The two are compared here for all values that evaluation comes to: a length or a field that the test
reports can be accessed, and nothing else can. There is one exception. The type of a packed map, as
a value, has the fields of the map for the test, but cannot be opened.
-/

namespace Residual

/-- A union, or a recursive type, which stands for one. -/
def Ty.IsSum : Ty → Prop
  | .union _ | .recur _ => True
  | _ => False

/-- A value as evaluation hands it on: no code, a miss without a result, and a box only of a type
with members. -/
def Term.Shaped : Term → Prop
  | .box _ ty => ty.IsSum
  | .op _ _ ty => ty = .unit
  | .letIn _ _ _ _ | .state _ _ _ | .call _ _ _ _ => False
  | _ => True

/-- The type of a packed map, as a value. -/
def Term.isLayoutType : Term → Bool
  | .type (.layout _ _ _) => true
  | _ => false

/-- How many reads an access to the parts of a value of the type may take. -/
def Ty.width : Ty → Nat
  | .list items => items.length
  | .map _ _ => 1
  | .layout _ env _ => env.packed.length
  | _ => 0

lemma Term.Shaped.of_value {g : Ground} {t : Term} (hformed : t.Formed) (hsound : t.Sound g false)
    (hbox : ∀ inner ty, t = .box inner ty → ty.IsSum) : t.Shaped := by
  cases t with
  | box inner ty => exact hbox inner ty rfl
  | op o args ty => exact hsound.2
  | letIn _ _ _ _ | state _ _ _ | call _ _ _ _ => exact hformed.elim
  | type _ | var _ | tuple _ | map _ _ | lit _ => trivial

namespace Eval

variable {α β : Type}

/-! ### Steps that need nothing but tags -/

/-- With room for `n` tags the step succeeds, and draws no more than these. -/
def Draws (n : Nat) (m : Eval α) : Prop :=
  ∀ w, w.scope.tags.next + n ≤ Tags.limit →
    ∃ a w', exec m w = (.ok a, w') ∧ w'.scope.tags.next ≤ w.scope.tags.next + n

namespace Draws

lemma pure (a : α) : Draws 0 (pure a : Eval α) := fun w _ => ⟨a, w, rfl, Nat.le_refl _⟩

lemma mono {n n' : Nat} {m : Eval α} (h : Draws n m) (hn : n ≤ n') : Draws n' m := by
  intro w hroom
  obtain ⟨a, w', hrun, hnext⟩ := h w (Nat.le_trans (Nat.add_le_add_left hn _) hroom)
  exact ⟨a, w', hrun, Nat.le_trans hnext (Nat.add_le_add_left hn _)⟩

lemma bind {n n' : Nat} {m : Eval α} {f : α → Eval β} (hm : Draws n m)
    (hf : ∀ a, Draws n' (f a)) : Draws (n + n') (m >>= f) := by
  intro w hroom
  rw [← Nat.add_assoc] at hroom ⊢
  obtain ⟨a, w₁, hrun, hnext⟩ := hm w (Nat.le_of_add_right_le hroom)
  obtain ⟨b, w₂, hrun', hnext'⟩ :=
    hf a w₁ (Nat.le_trans (Nat.add_le_add_right hnext _) hroom)
  exact ⟨b, w₂, by rw [exec_bind_of_ok hrun, hrun'],
    Nat.le_trans hnext' (Nat.add_le_add_right hnext _)⟩

lemma mapM {l : List α} {f : α → Eval β} (h : ∀ a ∈ l, Draws 1 (f a)) :
    Draws l.length (l.mapM f) := by
  induction l with
  | nil => exact .pure []
  | cons a rest ih =>
    obtain ⟨ha, hrest⟩ := List.forall_mem_cons.1 h
    rw [List.mapM_cons, List.length_cons, Nat.add_comm]
    exact ha.bind fun b => (ih hrest).bind fun bs => .pure (b :: bs)

/-- In a world with room the step succeeds. -/
theorem ok {n : Nat} {m : Eval α} (h : Draws n m) {w : World}
    (hroom : w.scope.tags.next + n ≤ Tags.limit) : ∃ a, (exec m w).1 = .ok a := by
  obtain ⟨a, w', hrun, -⟩ := h w hroom
  exact ⟨a, by rw [hrun]⟩

end Draws

lemma draws_bindResult (t : Term) (ty : Ty) : Draws 1 (bindResult t ty) := by
  intro w hroom
  cases hty : ty.isUnit with
  | false =>
    exact ⟨_, _, exec_bindResult_of_data hty t hroom, Nat.le_refl _⟩
  | true =>
    refine ⟨.ofUnit ty, w.push (.state t w.scope.trace), ?_, Nat.le_succ _⟩
    rw [bindResult, if_pos hty]
    rfl

/-- An operation takes a tag at most. -/
lemma draws_emit (op : Op) (args : List Term) (ty : Ty) : Draws 1 (emit op args ty) := by
  intro w hroom
  rw [emit, exec_bind_of_ok (exec_getSession w)]
  split
  · rename_i hshared
    have hdata : ty.isUnit = false := by
      simp only [Bool.and_eq_true, Bool.not_eq_true'] at hshared
      exact hshared.2
    rw [exec_bind_of_ok (exec_getScope w)]
    cases hget : w.scope.sharing.get? ⟨op, args⟩ with
    | some v => exact ⟨_, _, rfl, Nat.le_succ _⟩
    | none =>
      have hbind := exec_bindResult_of_data hdata (.op op args ty) hroom
      rw [bindResult, hdata, if_neg Bool.false_ne_true] at hbind
      obtain ⟨v, w₁, hfresh, hrest⟩ := exec_bind_eq_ok.1 hbind
      obtain ⟨_, w₂, hpush, hrest⟩ := exec_bind_eq_ok.1 hrest
      cases hrest
      dsimp only
      rw [exec_bind_of_ok hfresh, exec_bind_of_ok hpush, exec_bind_of_ok (exec_modifyScope _ _)]
      exact ⟨_, _, rfl, Nat.le_refl _⟩
  · exact draws_bindResult (.op op args ty) ty w hroom

end Eval

/-! ### Tuples -/

lemma Ty.tupleLength?_eq_some {ty : Ty} {n : Nat} (h : ty.tupleLength? = some n) :
    ∃ items, ty = .list items ∧ items.length = n := by
  cases ty with
  | list items => exact ⟨items, rfl, Option.some.inj h⟩
  | _ => cases h

lemma Term.width_of_tupleLength? {t : Term} {n : Nat} (h : t.tupleLength? = some n) :
    t.ty.width = n := by
  rw [Term.tupleLength?_eq] at h
  obtain ⟨items, hty, hn⟩ := Ty.tupleLength?_eq_some h
  rw [hty]
  exact hn

/-- What has a length is a tuple, the type of one, a variable, or a miss, which is empty. -/
lemma Term.Shaped.of_tupleLength? {t : Term} (ht : t.Shaped) {n : Nat}
    (h : t.tupleLength? = some n) :
    (∃ items, t = .tuple items ∧ items.length = n) ∨
      (∃ items, t = .type (.list items) ∧ items.length = n) ∨
      (∃ tag items, t = .var ⟨tag, .list items⟩ ∧ items.length = n) ∨ n = 0 := by
  rw [Term.tupleLength?_eq] at h
  obtain ⟨items, hty, hn⟩ := Ty.tupleLength?_eq_some h
  cases t with
  | tuple ts =>
    cases hty
    exact .inl ⟨ts, rfl, (Term.length_tys ts).symm.trans hn⟩
  | type ty =>
    cases hty
    exact .inr (.inl ⟨items, rfl, hn⟩)
  | var v =>
    obtain ⟨tag, ty⟩ := v
    cases hty
    exact .inr (.inr (.inl ⟨tag, items, rfl, hn⟩))
  | op o args ty =>
    cases ht
    cases hty
    exact .inr (.inr (.inr hn.symm))
  | box inner ty =>
    cases hty
    exact ht.elim
  | map _ _ => cases hty
  | lit _ => cases hty
  | letIn _ _ _ _ | state _ _ _ | call _ _ _ _ => exact ht.elim

namespace Eval

/-- An index below the length can be accessed. -/
lemma draws_tupleIndex {t : Term} (ht : t.Shaped) {length i : Nat}
    (hlength : t.tupleLength? = some length) (hi : i < length) : Draws 1 (tupleIndex t i) := by
  have hitem : ∀ {α : Type} {items : List α}, items.length = length →
      ∃ item, items[i]? = some item :=
    fun {_ items} h => ⟨items[i], List.getElem?_eq_getElem (h.symm ▸ hi)⟩
  rcases ht.of_tupleLength? hlength with ⟨items, rfl, hn⟩ | ⟨items, rfl, hn⟩ |
    ⟨tag, items, rfl, hn⟩ | rfl
  · obtain ⟨item, hitem⟩ := hitem hn
    rw [tupleIndex, hitem]
    exact (Draws.pure item).mono (Nat.zero_le _)
  · obtain ⟨item, hitem⟩ := hitem hn
    rw [tupleIndex, hitem]
    exact (Draws.pure _).mono (Nat.zero_le _)
  · obtain ⟨item, hitem⟩ := hitem hn
    rw [tupleIndex, hitem]
    dsimp only
    split
    · exact (Draws.pure _).mono (Nat.zero_le _)
    · exact draws_emit _ _ _
  · exact absurd hi (Nat.not_lt_zero i)

/-- What can be accessed is below the length. -/
lemma lt_of_tupleIndex {t u : Term} {i : Nat} {w w' : World}
    (h : exec (tupleIndex t i) w = (.ok u, w')) : ∃ n, t.tupleLength? = some n ∧ i < n := by
  have hlt : ∀ {α : Type} {items : List α} {item : α}, items[i]? = some item → i < items.length :=
    fun h => (List.getElem?_eq_some_iff.1 h).1
  unfold tupleIndex at h
  split at h
  · rename_i items
    split at h
    · exact ⟨_, rfl, hlt ‹_›⟩
    · cases h
  · rename_i items
    split at h
    · exact ⟨_, rfl, hlt ‹_›⟩
    · cases h
  · rename_i tag items
    split at h
    · exact ⟨_, rfl, hlt ‹_›⟩
    · cases h
  · cases h

/-! ### Modules -/

/-- The step succeeds in the world. -/
def Succeeds (m : Eval α) (w : World) : Prop := ∃ a, (exec m w).1 = .ok a

lemma succeeds_bind_of_ok {m : Eval α} {f : α → Eval β} {w w' : World} {a : α}
    (h : exec m w = (.ok a, w')) : Succeeds (m >>= f) w ↔ Succeeds (f a) w' := by
  rw [Succeeds, exec_bind_of_ok h, Succeeds]

lemma not_succeeds_fail (c : Cause) (w : World) : ¬ Succeeds (fail c : Eval α) w := by
  rintro ⟨a, h⟩
  cases h

/-- A value can be opened at the fields of the map that it is or that it is read as. -/
lemma succeeds_openField {op : ModuleOp} {t : Term} {x : Name} {w : World}
    {m : Option (Env × MapKind)} (hvar : ∀ v ∈ t.var?, ∀ fields kind, v.ty ≠ .map fields kind)
    (hmap : (exec (mapValue? t) w).1 = .ok m) :
    Succeeds (openField op t x) w ↔ ∃ env kind, m = some (env, kind) ∧ (env.get? x).isSome := by
  obtain ⟨w', hmap⟩ : ∃ w', exec (mapValue? t) w = (.ok m, w') := ⟨_, Prod.ext hmap rfl⟩
  unfold openField
  split
  · exact absurd rfl (hvar _ rfl _ _)
  · cases m with
    -- What is no map fails; a map fails if it has no such field.
    | none =>
      have hnone : exec (mapValue (.module op) t) w =
          (.error (.failed ⟨.notModule (.module op) t.ty, w'.scope.trace, none⟩), w') := by
        rw [mapValue, exec_bind_of_ok hmap]
        rfl
      rw [Succeeds, exec_bind_of_error hnone]
      constructor
      · rintro ⟨_, h⟩
        cases h
      · rintro ⟨_, _, h, -⟩
        cases h
    | some m =>
      obtain ⟨env, kind⟩ := m
      have hsome : exec (mapValue (.module op) t) w = (.ok (env, kind), w') := by
        rw [mapValue, exec_bind_of_ok hmap]
        rfl
      rw [succeeds_bind_of_ok hsome]
      dsimp only
      cases hget : env.get? x with
      | none =>
        refine ⟨fun h => absurd h (not_succeeds_fail _ _), ?_⟩
        rintro ⟨_, _, h, hx⟩
        cases h
        rw [hget] at hx
        cases hx
      | some value => exact ⟨fun _ => ⟨env, kind, rfl, by rw [hget]; rfl⟩, fun _ => ⟨value, rfl⟩⟩

/-- What cannot be read as a map cannot be opened. -/
lemma not_succeeds_openField {op : ModuleOp} {t : Term} {x : Name} {w : World}
    (hvar : ∀ v ∈ t.var?, ∀ fields kind, v.ty ≠ .map fields kind)
    (hmap : (exec (mapValue? t) w).1 = .ok none) : ¬ Succeeds (openField op t x) w := by
  rw [succeeds_openField hvar hmap]
  rintro ⟨_, _, h, -⟩
  cases h

/-- A variable of the type of a map can be opened at the fields of the type. -/
lemma succeeds_openField_var_map (op : ModuleOp) (tag : Tag) (fields : Fields Ty) (kind : MapKind)
    (x : Name) {w : World} (hroom : w.scope.tags.next + 1 ≤ Tags.limit) :
    Succeeds (openField op (.var ⟨tag, .map fields kind⟩) x) w ↔
      (Fields.get? fields x).isSome := by
  rw [openField]
  cases hget : Fields.get? fields x with
  | none => exact ⟨fun h => absurd h (not_succeeds_fail _ _), fun h => by cases h⟩
  | some ty =>
    refine ⟨fun _ => rfl, fun _ => ?_⟩
    dsimp only
    rw [readField]
    split
    · exact ⟨_, rfl⟩
    · exact (draws_emit _ _ _).ok hroom

/-- A field can be opened if the test finds it, but nothing can in the type of a packed map. -/
lemma succeeds_openField_iff (op : ModuleOp) {t : Term} (hformed : t.Formed) (ht : t.Shaped)
    (x : Name) {w : World} (hroom : w.scope.tags.next + t.ty.width ≤ Tags.limit) :
    Succeeds (openField op t x) w ↔ t.hasMember x = true ∧ t.isLayoutType = false := by
  have hno : ∀ {t : Term}, t.var? = none → ∀ v ∈ t.var?, ∀ fields kind, v.ty ≠ .map fields kind :=
    fun h v hv => by rw [h] at hv; cases hv
  -- Where there is no map, there is no field.
  have hnone : ∀ {t : Term}, (∀ v ∈ t.var?, ∀ fields kind, v.ty ≠ .map fields kind) →
      (exec (mapValue? t) w).1 = .ok none → t.hasMember x = false →
      (Succeeds (openField op t x) w ↔ t.hasMember x = true ∧ t.isLayoutType = false) :=
    fun hvar hmap hmember =>
      iff_of_false (not_succeeds_openField hvar hmap) fun h => by rw [hmember] at h; cases h.1
  cases t with
  | map env kind =>
    rw [succeeds_openField (m := some (env, kind)) (hno rfl) rfl]
    constructor
    · rintro ⟨_, _, h, hx⟩
      cases h
      exact ⟨hx, rfl⟩
    · exact fun h => ⟨env, kind, rfl, h.1⟩
  | var v =>
    obtain ⟨tag, ty⟩ := v
    cases ty with
    | map fields kind =>
      rw [succeeds_openField_var_map op tag fields kind x hroom]
      exact ⟨fun h => ⟨h, rfl⟩, And.left⟩
    | layout l env kind =>
      obtain ⟨-, -, read, s, -, -, -, hunpack, -, hread⟩ :=
        exec_unpack (x := ⟨tag, .layout l env kind⟩) hformed.1 hroom
      have hmap : (exec (mapValue? (.var ⟨tag, .layout l env kind⟩)) w).1 =
          .ok (some (read, kind)) := by
        rw [mapValue?, exec_bind_of_ok hunpack]
        rfl
      rw [succeeds_openField (fun v hv fields kind h => by cases hv; cases h) hmap]
      constructor
      · rintro ⟨_, _, h, hx⟩
        cases h
        exact ⟨(hread x).symm.trans hx, rfl⟩
      · exact fun h => ⟨read, kind, rfl, (hread x).trans h.1⟩
    | prim _ | list _ | lit _ | closure _ _ | union _ | recur _ | array _ _ | foreign _ _ =>
      exact hnone (fun v hv _ _ h => by cases hv; cases h) rfl rfl
  | type ty =>
    cases ty with
    | map fields kind =>
      have hget : ((Env.plain (Term.ofUnitFields fields)).get? x).isSome =
          (Fields.get? fields x).isSome := by
        rw [Env.get?, Term.ofUnitFields_eq, Fields.get?_map, Option.isSome_map]
      rw [succeeds_openField (m := some (.plain (Term.ofUnitFields fields), kind)) (hno rfl) rfl]
      constructor
      · rintro ⟨_, _, h, hx⟩
        cases h
        exact ⟨hget.symm.trans hx, rfl⟩
      · exact fun h => ⟨_, kind, rfl, hget.trans h.1⟩
    | layout l env kind =>
      exact iff_of_false (not_succeeds_openField (hno rfl) rfl) fun h => by cases h.2
    | prim _ | list _ | lit _ | closure _ _ | union _ | recur _ | array _ _ | foreign _ _ =>
      exact hnone (hno rfl) rfl rfl
  | box inner ty =>
    refine hnone (hno rfl) rfl ?_
    cases ty <;> first | exact ht.elim | rfl
  | op o args ty =>
    cases ht
    exact hnone (hno rfl) rfl rfl
  | tuple _ | lit _ => exact hnone (hno rfl) rfl rfl
  | letIn _ _ _ _ | state _ _ _ | call _ _ _ _ => exact ht.elim

/-! ### Tests and accesses -/

/-- The test comes out true in the world. -/
def Affirms (m : Eval Term) (w : World) : Prop := (exec m w).1 = .ok (.lit (.bool true))

lemma affirms_return {b : Bool} {w : World} :
    Affirms (return .lit (.bool b)) w ↔ b = true := by
  cases b
  · exact ⟨fun h => (by cases h), fun h => (by cases h)⟩
  · exact ⟨fun _ => rfl, fun _ => rfl⟩

lemma affirms_lengthGe {t : Term} {n : Nat} {w : World} :
    Affirms (tupleOp (.lengthGe n) [t]) w ↔
      ∃ length, t.tupleLength? = some length ∧ n ≤ length := by
  have hop : Affirms (tupleOp (.lengthGe n) [t]) w ↔
      t.tupleLength?.any (fun length => decide (n ≤ length)) = true := affirms_return
  rw [hop, Option.any_eq_true]
  simp only [decide_eq_true_eq]

lemma succeeds_tupleIndex_iff {t : Term} (ht : t.Shaped) {i : Nat} {w : World}
    (hroom : w.scope.tags.next + t.ty.width ≤ Tags.limit) :
    Succeeds (tupleOp (.index i) [t]) w ↔ ∃ length, t.tupleLength? = some length ∧ i < length := by
  constructor
  · rintro ⟨u, h⟩
    exact lt_of_tupleIndex (Prod.ext h rfl)
  · rintro ⟨length, hlength, hi⟩
    refine ((draws_tupleIndex ht hlength hi).mono ?_).ok hroom
    rw [Term.width_of_tupleLength? hlength]
    exact Nat.one_le_of_lt hi

lemma succeeds_slice_iff {t : Term} (ht : t.Shaped) {n : Nat} {w : World}
    (hroom : w.scope.tags.next + t.ty.width ≤ Tags.limit) :
    Succeeds (tupleOp (.slice n) [t]) w ↔ ∃ length, t.tupleLength? = some length ∧ n ≤ length := by
  have hoperand : exec (operand (.tuple (.slice n)) [t]) w = (.ok t, w) := rfl
  rw [tupleOp, succeeds_bind_of_ok hoperand]
  dsimp only
  cases hlength : t.tupleLength? with
  | none =>
    exact iff_of_false (not_succeeds_fail _ _) fun ⟨_, h, _⟩ => by cases h
  | some length =>
    dsimp only
    split
    · rename_i hn
      refine iff_of_true ?_ ⟨length, rfl, hn⟩
      have hitems : Draws (List.range (length - n)).length
          ((List.range (length - n)).mapM fun k => tupleIndex t (n + k)) := by
        refine .mapM fun k hk => draws_tupleIndex ht hlength ?_
        have := List.mem_range.1 hk
        omega
      refine ((hitems.bind fun items => .pure (Term.tuple items)).mono ?_).ok hroom
      rw [List.length_range, Term.width_of_tupleLength? hlength]
      omega
    · rename_i hn
      refine iff_of_false (not_succeeds_fail _ _) ?_
      rintro ⟨_, h, hle⟩
      cases h
      exact hn hle

/-- Let evaluation come to a value, which if it is a box is one of a union or a recursive type.
Then, wherever there are tags for what has to be read, its shape tests tell what can be accessed:
the test for a length above `n` comes out true exactly if index `n` can be accessed, the test for a
length of `n` or more exactly if the elements from `n` on can, and the test for a field exactly if
the field can be opened, except that nothing can be opened in the type of a packed map. -/
theorem affirms_iff_succeeds {i : Region} (hknown : ∀ key, i.asks.known key) {w : World}
    (hw : i.Ready w) {e : Expr} (he : e.Sorted) {fuel : Nat} {t : Term}
    (hrun : (exec (eval fuel e) w).1 = .ok t) (hbox : ∀ inner ty, t = .box inner ty → ty.IsSum)
    (ev : Expr → Eval Term) {v : World} (hroom : v.scope.tags.next + t.ty.width ≤ Tags.limit) :
    (∀ n, Affirms (tupleOp (.lengthGe (n + 1)) [t]) v ↔ Succeeds (tupleOp (.index n) [t]) v) ∧
      (∀ n, Affirms (tupleOp (.lengthGe n) [t]) v ↔ Succeeds (tupleOp (.slice n) [t]) v) ∧
      ∀ x, Succeeds (moduleOp ev (.open x) [t]) v ↔
        Affirms (moduleOp ev (.hasMember x) [t]) v ∧ t.isLayoutType = false := by
  obtain ⟨-, -, hvalue⟩ := (Region.evaluator_eval hknown fuel).good i rfl e w he hw
  have hvalue := hvalue t hrun
  have ht : t.Shaped := .of_value hvalue.formed hvalue.sound hbox
  refine ⟨fun n => ?_, fun n => ?_, fun x => ?_⟩
  · rw [affirms_lengthGe, succeeds_tupleIndex_iff ht hroom]
    exact Iff.rfl
  · rw [affirms_lengthGe, succeeds_slice_iff ht hroom]
  · have hmember : Affirms (moduleOp ev (.hasMember x) [t]) v ↔ t.hasMember x = true :=
      affirms_return
    rw [hmember]
    exact succeeds_openField_iff (.open x) hvalue.formed ht x hroom

/-! #### A packed map and its type -/

namespace PackedShape

/-- The field of the packed map. -/
def field : Name := ((Build.name "x").run {}).1

/-- The type of a packed map. -/
def packedType : Build Expr := do
  let one ← Build.lit (.string "one")
  let fields ← Build.op (.module (.create [← Build.name "x"])) [one]
  Build.op (.type .get) [← Build.op (.layout (.pack .heap)) [fields]]

/-- A match of the type of a packed map, with a clause for its field and a clause for all else. -/
def matching : Build Expr := do
  let value ← packedType
  let body ← Build.lit (.string "two")
  let member := .member (← Build.name "x") (← Build.name "y")
  let clauses := [.mk (← Build.pattern (.module member)) body, .mk (← Build.pattern .wildcard) body]
  Build.matchWith value clauses

def call (act : Build Expr) : Call := .of act {} 30

/-- What the code of a compilation comes to. -/
def value? (c : Call) : Option Term := (exec (eval c.fuel c.code) (c.world {})).1.toOption

lemma exec_of_value? {c : Call} {t : Term} (h : value? c = some t) :
    (exec (eval c.fuel c.code) (c.world {})).1 = .ok t := by
  unfold value? at h
  rcases hrun : (exec (eval c.fuel c.code) (c.world {})).1 with _ | u <;> rw [hrun] at h <;> cases h
  rfl

/-- The compilation fails because something is no module. -/
def failsAsNoModule (c : Call) : Bool :=
  match (c.run {}).1 with
  | .error (.failed ⟨.notModule _ _, _, _⟩) => true
  | _ => false

lemma exists_of_failsAsNoModule {c : Call} (h : failsAsNoModule c = true) :
    ∃ op ty trace pending,
      (c.run {}).1 = .error (.failed ⟨.notModule op ty, trace, pending⟩) := by
  unfold failsAsNoModule at h
  split at h
  · exact ⟨_, _, _, _, ‹_›⟩
  · cases h

end PackedShape

open PackedShape in
/-- The field of a packed map is found and can be opened. -/
theorem affirms_iff_succeeds_packed : ∃ t,
    (exec (eval PackedInput.first.fuel PackedInput.first.code) (PackedInput.first.world {})).1 =
        .ok t ∧
      Affirms (moduleOp (eval 1) (.hasMember field) [t]) (PackedInput.first.world {}) ∧
      Succeeds (moduleOp (eval 1) (.open field) [t]) (PackedInput.first.world {}) := by
  have hrun : (value? PackedInput.first).any (fun t => t.var?.isSome && t.hasMember field &&
      decide (t.ty.width = 1)) = true := by decide +kernel
  obtain ⟨t, hvalue, hcheck⟩ := (Option.any_eq_true _ _).1 hrun
  simp only [Bool.and_eq_true, decide_eq_true_eq] at hcheck
  obtain ⟨⟨hvar, hmember⟩, hwidth⟩ := hcheck
  have hmeets := PackedInput.meets_first .scoping
  have haffirms : Affirms (moduleOp (eval 1) (.hasMember field) [t])
      (PackedInput.first.world {}) := affirms_return.2 hmember
  have hroom : (PackedInput.first.world {}).scope.tags.next + 1 ≤ Tags.limit := by decide +kernel
  cases t with
  | var v =>
    obtain ⟨-, -, hopen⟩ := affirms_iff_succeeds (fun _ => trivial)
      (hmeets.ready (Session.formed_new {}) (Session.sound_new _ {})) hmeets.formed.filtered.1
      (exec_of_value? hvalue) (fun _ _ h => by cases h) (eval 1) (hwidth ▸ hroom)
    exact ⟨.var v, exec_of_value? hvalue, haffirms, (hopen field).2 ⟨haffirms, rfl⟩⟩
  | _ => cases hvar

open PackedShape in
/-- The type of a packed map has the field for the test, and cannot be opened. A match with a clause
for the field fails, although there is a clause for all else after it. -/
theorem exists_layoutType_hasMember : ∃ t,
    (exec (eval (call packedType).fuel (call packedType).code) ((call packedType).world {})).1 =
        .ok t ∧
      (∀ w, Affirms (moduleOp (eval 1) (.hasMember field) [t]) w ∧
        ¬ Succeeds (moduleOp (eval 1) (.open field) [t]) w) ∧
      ∃ op ty trace pending,
        ((call matching).run {}).1 = .error (.failed ⟨.notModule op ty, trace, pending⟩) := by
  have hrun : (value? (call packedType)).any
      (fun t => t.isLayoutType && t.hasMember field) = true := by decide +kernel
  obtain ⟨t, hvalue, hcheck⟩ := (Option.any_eq_true _ _).1 hrun
  obtain ⟨htype, hmember⟩ := Bool.and_eq_true_iff.1 hcheck
  refine ⟨t, exec_of_value? hvalue, fun w => ⟨affirms_return.2 hmember, ?_⟩,
    exists_of_failsAsNoModule (by decide +kernel)⟩
  unfold Term.isLayoutType at htype
  split at htype
  · rename_i l env kind
    have hopen : ¬ Succeeds (openField (.open field) (.type (.layout l env kind)) field) w :=
      not_succeeds_openField (fun v hv => by cases hv) rfl
    exact hopen
  · cases htype

end Eval

end Residual
