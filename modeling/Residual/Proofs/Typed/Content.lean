import Mathlib.Algebra.Ring.Int.Defs
import Residual.Typed.Order.Code

/-!
Equality by content is equality of codes.

No code is a proper start of another one, so equal codes in sequence have equal parts. It follows
that equality by content is an equivalence, and that it is the one that the order goes by.
-/

namespace Residual

namespace Code

lemma Splits.append_eq_iff {c d : Code} (h : Splits c d) {x y : Code} :
    c ++ x = d ++ y ↔ c = d ∧ x = y := by
  rw [← cmp_eq_eq, h x y, Ordering.then_eq_eq, cmp_eq_eq, cmp_eq_eq]

lemma splits_of_then {c d : Code} {o : Ordering}
    (h : ∀ x y, cmp (c ++ x) (d ++ y) = o.then (cmp x y)) : Splits c d := by
  intro x y
  have ho := h [] []
  rw [List.append_nil, List.append_nil, cmp_self, Ordering.then_eq] at ho
  rw [h, ho]

lemma list_eq_iff {α : Type} {f : α → Code} (h : ∀ a b, Splits (f a) (f b)) {as bs : List α} :
    list f as = list f bs ↔ as.map f = bs.map f := by
  induction as generalizing bs with
  | nil => cases bs <;> simp [list]
  | cons a as ih =>
    cases bs with
    | nil => simp [list]
    | cons b bs => simp [list, (h a b).append_eq_iff, ih]

lemma string_eq_iff {s t : String} : string s = string t ↔ s = t := by
  rw [string, string, list_eq_iff fun _ _ => splits_of_length rfl,
    List.map_inj_right fun a b hab => ?_]
  · exact ⟨fun h => String.ext h, fun h => h ▸ rfl⟩
  · exact Char.toNat_inj.1 (by simpa [nat] using hab)

end Code

/-! ### Ranks and codes of the parts -/

lemma IntTy.rank_eq_iff {a b : IntTy} : a.rank = b.rank ↔ a = b := by
  cases a <;> cases b <;> decide

lemma Prim.rank_eq_iff {a b : Prim} : a.rank = b.rank ↔ a = b := by
  have hint : ∀ (t : IntTy) (n : Nat), 8 ≤ n → t.rank ≠ n := fun t n hn h => by
    have := t.rank_lt
    omega
  rcases a with s | (_ | _) | _ | _ | _ <;> rcases b with t | (_ | _) | _ | _ | _ <;>
    simp [Prim.rank, IntTy.rank_eq_iff, hint, Ne.symm (hint _ _ _)]

lemma Layout.rank_eq_iff {a b : Layout} : a.rank = b.rank ↔ a = b := by
  cases a <;> cases b <;> decide

lemma Storage.rank_eq_iff {a b : Storage} : a.rank = b.rank ↔ a = b := by
  cases a <;> cases b <;> decide

lemma Target.rank_eq_iff {a b : Target} : a.rank = b.rank ↔ a = b := by
  cases a <;> cases b <;> decide

lemma PointKind.rank_eq_iff {a b : PointKind} : a.rank = b.rank ↔ a = b := by
  cases a <;> cases b <;> decide

lemma Name.index_eq_iff {x y : Name} : x.index = y.index ↔ x = y := by
  cases x; cases y; simp

lemma Key.symbol_eq_iff {a b : Key} : a.symbol = b.symbol ↔ a = b := by
  cases a; cases b; simp

lemma Literal.code_eq_iff {l m : Literal} : l.code = m.code ↔ l = m := by
  -- The first number of an integer's code is below those of the other forms.
  have hint : ∀ (t : IntTy) (n : Int), 8 ≤ n → (t.rank : Int) ≠ n := fun t n hn h => by
    have := t.rank_lt
    omega
  cases l with
  | int s v _ =>
    cases m with
    | int t u _ => simp [Literal.code, IntTy.rank_eq_iff]
    | _ => simp [Literal.code, hint]
  | float32 a =>
    cases m with
    | int t u _ => simp [Literal.code, Ne.symm (hint _ _ _)]
    | float32 b => simp [Literal.code, UInt32.toNat_inj]
    | _ => simp [Literal.code]
  | float64 a =>
    cases m with
    | int t u _ => simp [Literal.code, Ne.symm (hint _ _ _)]
    | float64 b => simp [Literal.code, UInt64.toNat_inj]
    | _ => simp [Literal.code]
  | bool a =>
    cases m with
    | int t u _ => simp [Literal.code, Ne.symm (hint _ _ _)]
    | bool b => cases a <;> cases b <;> simp [Literal.code]
    | _ => simp [Literal.code]
  | string a =>
    cases m with
    | int t u _ => simp [Literal.code, Ne.symm (hint _ _ _)]
    | string b => simp [Literal.code, Code.string_eq_iff]
    | _ => simp [Literal.code]
  | char a =>
    cases m with
    | int t u _ => simp [Literal.code, Ne.symm (hint _ _ _)]
    | char b => simp [Literal.code, Char.toNat_inj]
    | _ => simp [Literal.code]

lemma MapKind.code_eq_iff {k l : MapKind} : k.code = l.code ↔ (k == l) = true := by
  change _ ↔ k.beq l = true
  cases k <;> cases l <;>
    simp [MapKind.code, MapKind.beq, Name.index_eq_iff, and_assoc,
      show ∀ a b : Expr, (a == b) = (a.symbol == b.symbol) from fun _ _ => rfl]

lemma Trace.code_eq_iff {s t : Trace} : s.code = t.code ↔ s = t := by
  have hspan : ∀ a b : Span, a.code = b.code → a = b := by
    rintro ⟨⟨_⟩, ⟨_, _⟩, ⟨_, _⟩⟩ ⟨⟨_⟩, ⟨_, _⟩, ⟨_, _⟩⟩ h
    simpa [Span.code, and_assoc] using h
  rw [Trace.code, Trace.code, Code.list_eq_iff fun _ _ => Code.splits_of_length rfl,
    List.map_inj_right hspan]
  cases s; cases t; simp

lemma PrimOp.code_eq_iff {o p : PrimOp} : o.code = p.code ↔ o = p := by
  rcases o with o | o | o | o | _ <;> rcases p with p | p | p | p | _ <;>
    first
    | (cases o <;> cases p <;> decide)
    | simp [PrimOp.code]

lemma ModuleOp.code_eq_iff {o p : ModuleOp} : o.code = p.code ↔ o = p := by
  have hnames : ∀ as bs : List Name, Code.list Name.code as = Code.list Name.code bs ↔ as = bs := by
    intro as bs
    rw [Code.list_eq_iff fun _ _ => Code.splits_of_length rfl, List.map_inj_right fun a b h => ?_]
    exact Name.index_eq_iff.1 (by simpa [Name.code, Code.nat] using h)
  cases o <;> cases p <;>
    simp [ModuleOp.code, hnames, Name.code, Code.nat, Name.index_eq_iff]

lemma Op.code_eq_iff {o p : Op} : o.code = p.code ↔ o = p := by
  have hentry : ∀ a b : EntryOp, a.rank = b.rank ↔ a = b := by
    intro a b
    cases a <;> cases b <;> decide
  have htuple : ∀ a b : TupleOp, a.code = b.code ↔ a = b := by
    intro a b
    cases a <;> cases b <;> simp [TupleOp.code]
  have hlayout : ∀ a b : LayoutOp, a.code = b.code ↔ a = b := by
    intro a b
    cases a <;> cases b <;> simp [LayoutOp.code, Layout.rank_eq_iff]
  have harray : ∀ a b : ArrayOp, a.code = b.code ↔ a = b := by
    intro a b
    cases a <;> cases b <;> simp [ArrayOp.code, Storage.rank_eq_iff]
  have htype : ∀ a b : TypeOp, a.code = b.code ↔ a = b := by
    intro a b
    cases a <;> cases b <;> simp [TypeOp.code, Target.rank_eq_iff]
  cases o <;> cases p <;>
    simp [Op.code, hentry, htuple, hlayout, harray, htype, PrimOp.code_eq_iff,
      ModuleOp.code_eq_iff, Target.rank_eq_iff]

/-! ### Types and terms -/

lemma Ty.splits_code (a b : Ty) : Code.Splits a.code b.code :=
  Code.splits_of_then (Ty.cmp_code a b)

lemma Ty.splits_codeFields (as bs : List (Name × Ty)) :
    Code.Splits (Ty.codeFields as) (Ty.codeFields bs) :=
  Code.splits_of_then (Ty.cmpFields_code as bs)

lemma ForeignPart.splits_code (a b : ForeignPart) : Code.Splits a.code b.code :=
  Code.splits_of_then (ForeignPart.cmp_code a b)

lemma Var.splits_code (a b : Var) : Code.Splits a.code b.code :=
  Code.splits_of_then (Var.cmp_code a b)

lemma Var.splits_codeAll (as bs : List Var) :
    Code.Splits (Var.codeAll as) (Var.codeAll bs) :=
  Code.splits_of_then (Var.cmpAll_code as bs)

lemma Term.splits_code (a b : Term) : Code.Splits a.code b.code :=
  Code.splits_of_then (Term.cmp_code a b)

lemma Term.splits_codeAll (as bs : List Term) :
    Code.Splits (Term.codeAll as) (Term.codeAll bs) :=
  Code.splits_of_then (Term.cmpAll_code as bs)

lemma Env.splits_code (a b : Env) : Code.Splits a.code b.code :=
  Code.splits_of_then (Env.cmp_code a b)

mutual

/-- Equality by content is equality of codes. -/
theorem Ty.beq_content_iff (a b : Ty) : a.beq .content b = true ↔ a.code = b.code := by
  -- Two constructors never agree, in the test or in the code; the cases are the equal ones.
  match a with
  | .prim p =>
    cases b with
    | prim q => simp [Ty.beq, Ty.code, Prim.rank_eq_iff]
    | _ => simp [Ty.beq, Ty.code]
  | .list as =>
    cases b with
    | list bs => simp [Ty.beq, Ty.code, Ty.beqAll_content_iff as bs]
    | _ => simp [Ty.beq, Ty.code]
  | .lit l =>
    cases b with
    | lit m => simp [Ty.beq, Ty.code, Literal.code_eq_iff]
    | _ => simp [Ty.beq, Ty.code]
  -- The code of the fields has no proper prefix, so the code after it is found.
  | .map as k =>
    cases b with
    | map bs l =>
      simp [Ty.beq, Ty.code, Ty.beqFields_content_iff as bs, MapKind.code_eq_iff,
        (Ty.splits_codeFields as bs).append_eq_iff]
    | _ => simp [Ty.beq, Ty.code]
  | .layout l e k =>
    cases b with
    | layout m f j =>
      simp [Ty.beq, Ty.code, Env.beq_content_iff e f, MapKind.code_eq_iff,
        Layout.rank_eq_iff, (Env.splits_code e f).append_eq_iff, and_assoc]
    | _ => simp [Ty.beq, Ty.code]
  | .closure dom range =>
    cases b with
    | closure dom' range' =>
      simp [Ty.beq, Ty.code, Ty.beq_content_iff dom dom', Ty.beq_content_iff range range',
        (Ty.splits_code dom dom').append_eq_iff]
    | _ => simp [Ty.beq, Ty.code]
  | .union as =>
    cases b with
    | union bs => simp [Ty.beq, Ty.code, Ty.beqAll_content_iff as bs]
    | _ => simp [Ty.beq, Ty.code]
  | .recur k =>
    cases b with
    | recur l => simp [Ty.beq, Ty.code, Key.symbol_eq_iff]
    | _ => simp [Ty.beq, Ty.code]
  | .array s a =>
    cases b with
    | array t b =>
      simp [Ty.beq, Ty.code, Storage.rank_eq_iff, Ty.beq_content_iff a b]
    | _ => simp [Ty.beq, Ty.code]
  | .foreign t ps =>
    cases b with
    | foreign u qs =>
      simp [Ty.beq, Ty.code, Target.rank_eq_iff,
        ForeignPart.beqAll_content_iff ps qs]
    | _ => simp [Ty.beq, Ty.code]
termination_by structural a

lemma Ty.beqAll_content_iff (as bs : List Ty) :
    Ty.beqAll .content as bs = true ↔ Ty.codeAll as = Ty.codeAll bs := by
  match as, bs with
  | [], [] => simp [Ty.beqAll]
  | [], _ :: _ => simp [Ty.beqAll, Ty.codeAll]
  | _ :: _, [] => simp [Ty.beqAll, Ty.codeAll]
  | a :: as, b :: bs =>
    simp [Ty.beqAll, Ty.codeAll, (Ty.splits_code a b).append_eq_iff, Ty.beq_content_iff a b,
      Ty.beqAll_content_iff as bs]
termination_by structural as

lemma Ty.beqFields_content_iff (as bs : List (Name × Ty)) :
    Ty.beqFields .content as bs = true ↔ Ty.codeFields as = Ty.codeFields bs := by
  match as, bs with
  | [], [] => simp [Ty.beqFields]
  | [], _ :: _ => simp [Ty.beqFields, Ty.codeFields]
  | _ :: _, [] => simp [Ty.beqFields, Ty.codeFields]
  | (x, a) :: as, (y, b) :: bs =>
    simp [Ty.beqFields, Ty.codeFields, (Ty.splits_code a b).append_eq_iff, Ty.beq_content_iff a b,
      Ty.beqFields_content_iff as bs, Name.index_eq_iff, and_assoc]
termination_by structural as

lemma ForeignPart.beq_content_iff (a b : ForeignPart) :
    a.beq .content b = true ↔ a.code = b.code := by
  match a, b with
  | .text s, .text t => simp [ForeignPart.beq, ForeignPart.code, Code.string_eq_iff]
  | .type a, .type b => simp [ForeignPart.beq, ForeignPart.code, Ty.beq_content_iff a b]
  | .text s, .type b => simp [ForeignPart.beq, ForeignPart.code]
  | .type a, .text t => simp [ForeignPart.beq, ForeignPart.code]
termination_by structural a

lemma ForeignPart.beqAll_content_iff (as bs : List ForeignPart) :
    ForeignPart.beqAll .content as bs = true ↔
      ForeignPart.codeAll as = ForeignPart.codeAll bs := by
  match as, bs with
  | [], [] => simp [ForeignPart.beqAll]
  | [], _ :: _ => simp [ForeignPart.beqAll, ForeignPart.codeAll]
  | _ :: _, [] => simp [ForeignPart.beqAll, ForeignPart.codeAll]
  | a :: as, b :: bs =>
    simp [ForeignPart.beqAll, ForeignPart.codeAll, (ForeignPart.splits_code a b).append_eq_iff,
      ForeignPart.beq_content_iff a b, ForeignPart.beqAll_content_iff as bs]
termination_by structural as

lemma Var.beq_content_iff (a b : Var) : a.beq .content b = true ↔ a.code = b.code := by
  match a, b with
  | ⟨s, a⟩, ⟨t, b⟩ => simp [Var.beq, Var.code, Ty.beq_content_iff a b]
termination_by structural a

lemma Var.beqAll_content_iff (as bs : List Var) :
    Var.beqAll .content as bs = true ↔ Var.codeAll as = Var.codeAll bs := by
  match as, bs with
  | [], [] => simp [Var.beqAll]
  | [], _ :: _ => simp [Var.beqAll, Var.codeAll]
  | _ :: _, [] => simp [Var.beqAll, Var.codeAll]
  | a :: as, b :: bs =>
    simp [Var.beqAll, Var.codeAll, (Var.splits_code a b).append_eq_iff, Var.beq_content_iff a b,
      Var.beqAll_content_iff as bs]
termination_by structural as

lemma Term.beq_content_iff (a b : Term) : a.beq .content b = true ↔ a.code = b.code := by
  -- As for types: the cases are those of one constructor on both sides.
  match a with
  | .type a =>
    cases b with
    | type b => simp [Term.beq, Term.code, Ty.beq_content_iff a b]
    | _ => simp [Term.beq, Term.code]
  | .var v =>
    cases b with
    | var w => simp [Term.beq, Term.code, Var.beq_content_iff v w]
    | _ => simp [Term.beq, Term.code]
  | .tuple as =>
    cases b with
    | tuple bs => simp [Term.beq, Term.code, Term.beqAll_content_iff as bs]
    | _ => simp [Term.beq, Term.code]
  -- From here on several parts follow each other in the code.
  | .map e k =>
    cases b with
    | map f l =>
      simp [Term.beq, Term.code, Env.beq_content_iff e f, MapKind.code_eq_iff,
        (Env.splits_code e f).append_eq_iff]
    | _ => simp [Term.beq, Term.code]
  | .box a s =>
    cases b with
    | box b t =>
      simp [Term.beq, Term.code, Term.beq_content_iff a b, Ty.beq_content_iff s t,
        (Term.splits_code a b).append_eq_iff]
    | _ => simp [Term.beq, Term.code]
  | .lit l =>
    cases b with
    | lit m => simp [Term.beq, Term.code, Literal.code_eq_iff]
    | _ => simp [Term.beq, Term.code]
  | .letIn v a r s =>
    cases b with
    | letIn w b q t =>
      simp [Term.beq, Term.code, Var.beq_content_iff v w, Term.beq_content_iff a b,
        Term.beq_content_iff r q, Trace.code_eq_iff, (Var.splits_code v w).append_eq_iff,
        (Term.splits_code a b).append_eq_iff, (Term.splits_code r q).append_eq_iff, and_assoc]
    | _ => simp [Term.beq, Term.code]
  | .state a r s =>
    cases b with
    | state b q t =>
      simp [Term.beq, Term.code, Term.beq_content_iff a b, Term.beq_content_iff r q,
        Trace.code_eq_iff, (Term.splits_code a b).append_eq_iff,
        (Term.splits_code r q).append_eq_iff, and_assoc]
    | _ => simp [Term.beq, Term.code]
  | .op o as s =>
    cases b with
    | op p bs t =>
      simp [Term.beq, Term.code, Term.beqAll_content_iff as bs, Ty.beq_content_iff s t,
        Op.code_eq_iff, (Op.splits_code o p).append_eq_iff,
        (Term.splits_codeAll as bs).append_eq_iff, and_assoc]
    | _ => simp [Term.beq, Term.code]
  | .call k j vs s =>
    cases b with
    | call l m ws t =>
      simp [Term.beq, Term.code, Var.beqAll_content_iff vs ws, Ty.beq_content_iff s t,
        Key.symbol_eq_iff, PointKind.rank_eq_iff,
        (Var.splits_codeAll vs ws).append_eq_iff, and_assoc]
    | _ => simp [Term.beq, Term.code]
termination_by structural a

lemma Term.beqAll_content_iff (as bs : List Term) :
    Term.beqAll .content as bs = true ↔ Term.codeAll as = Term.codeAll bs := by
  match as, bs with
  | [], [] => simp [Term.beqAll]
  | [], _ :: _ => simp [Term.beqAll, Term.codeAll]
  | _ :: _, [] => simp [Term.beqAll, Term.codeAll]
  | a :: as, b :: bs =>
    simp [Term.beqAll, Term.codeAll, (Term.splits_code a b).append_eq_iff,
      Term.beq_content_iff a b, Term.beqAll_content_iff as bs]
termination_by structural as

lemma Env.beq_content_iff (a b : Env) : a.beq .content b = true ↔ a.code = b.code := by
  rw [Env.code_eq_visible b]
  match a with
  | .plain m => simp only [Env.beq, Env.code, Env.beqFields_content_iff _ m b.visible]
  | .restricted m used => simp only [Env.beq, Env.code, Env.beqFields_content_iff _ m b.visible]
  | .consed s m =>
    simp only [Env.beq, Env.code, Env.beqFields_content_iff _ m b.visible,
      Identity.accepts_content, Bool.false_or]
termination_by structural a

lemma Env.beqFields_content_iff (keep : Name → Bool) (as bs : List (Name × Term)) :
    Env.beqFields .content keep as bs = true ↔
      Env.codeFields keep as = Env.codeFields (fun _ => true) bs := by
  match as with
  | [] => cases bs <;> simp [Env.beqFields, Env.codeFields]
  | (x, a) :: as =>
    by_cases h : keep x = true
    · cases bs with
      | nil => simp [Env.beqFields, Env.codeFields, h]
      | cons b bs =>
        simp [Env.beqFields, Env.codeFields, h, (Term.splits_code a b.2).append_eq_iff,
          Term.beq_content_iff a b.2, Env.beqFields_content_iff keep as bs,
          Name.index_eq_iff, and_assoc]
    · simp [Env.beqFields, Env.codeFields, h, Env.beqFields_content_iff keep as bs]
termination_by structural as

end

lemma Ty.codeAll_eq_iff {as bs : List Ty} :
    Ty.codeAll as = Ty.codeAll bs ↔ as.map Ty.code = bs.map Ty.code := by
  have hlist : ∀ ts, Ty.codeAll ts = Code.list Ty.code ts := fun ts => by
    induction ts with
    | nil => rfl
    | cons t rest ih => rw [Ty.codeAll, Code.list, ih]
  rw [hlist, hlist, Code.list_eq_iff Ty.splits_code]

lemma Var.codeAll_eq_iff {as bs : List Var} :
    Var.codeAll as = Var.codeAll bs ↔ as.map Var.code = bs.map Var.code := by
  have hlist : ∀ vs, Var.codeAll vs = Code.list Var.code vs := fun vs => by
    induction vs with
    | nil => rfl
    | cons v rest ih => rw [Var.codeAll, Code.list, ih]
  rw [hlist, hlist, Code.list_eq_iff Var.splits_code]

lemma Term.codeAll_eq_iff {as bs : List Term} :
    Term.codeAll as = Term.codeAll bs ↔ as.map Term.code = bs.map Term.code := by
  have hlist : ∀ ts, Term.codeAll ts = Code.list Term.code ts := fun ts => by
    induction ts with
    | nil => rfl
    | cons t rest ih => rw [Term.codeAll, Code.list, ih]
  rw [hlist, hlist, Code.list_eq_iff Term.splits_code]

/-- The code of a map, all of it. -/
def Fields.code (m : Fields Term) : Code := Env.codeFields (fun _ => true) m

lemma Fields.sameContent_iff {m n : Fields Term} :
    Fields.sameContent m n = true ↔ Fields.code m = Fields.code n := by
  rw [Fields.sameContent_eq]
  exact Env.beqFields_content_iff _ m n

/-- Two maps have the same code if they bind the same names to values with the same codes. -/
theorem Fields.code_eq_iff {m n : Fields Term} :
    Fields.code m = Fields.code n ↔
      m.map (fun e => (e.1, e.2.code)) = n.map (fun e => (e.1, e.2.code)) := by
  induction m generalizing n with
  | nil => cases n <;> simp [Fields.code, Env.codeFields]
  | cons d rest ih =>
    cases n with
    | nil => simp [Fields.code, Env.codeFields]
    | cons e rest' =>
      have ih' := @ih rest'
      simp only [Fields.code] at ih'
      simp [Fields.code, Env.codeFields, (Term.splits_code d.2 e.2).append_eq_iff, ih',
        Name.index_eq_iff, and_assoc]

/-! ### Inversion -/

lemma Var.code_eq_iff {v w : Var} : v.code = w.code ↔ v.tag = w.tag ∧ v.ty.code = w.ty.code := by
  cases v
  cases w
  simp [Var.code]

section Inversion

variable {a b : Term} {s t : Ty} {v : Var} {o : Op} {args : List Term} {trace : Trace}

lemma Term.code_eq_type (h : (Term.type s).code = b.code) :
    ∃ s', b = .type s' ∧ s.code = s'.code := by
  cases b <;> simp_all [Term.code]

lemma Term.code_eq_var (h : (Term.var v).code = b.code) :
    ∃ v', b = .var v' ∧ v.code = v'.code := by
  cases b <;> simp_all [Term.code]

lemma Term.code_eq_tuple (h : (Term.tuple args).code = b.code) :
    ∃ args', b = .tuple args' ∧ Term.codeAll args = Term.codeAll args' := by
  cases b <;> simp_all [Term.code]

lemma Term.code_eq_map {env : Env} {kind : MapKind} (h : (Term.map env kind).code = b.code) :
    ∃ env' kind', b = .map env' kind' ∧ env.code = env'.code ∧ kind.code = kind'.code := by
  cases b with
  | map env' kind' =>
    rw [Term.code, Term.code, List.cons.injEq, (Env.splits_code env env').append_eq_iff] at h
    exact ⟨env', kind', rfl, h.2⟩
  | _ => simp [Term.code] at h

lemma Term.code_eq_box (h : (Term.box a s).code = b.code) :
    ∃ a' s', b = .box a' s' ∧ a.code = a'.code ∧ s.code = s'.code := by
  cases b with
  | box a' s' =>
    rw [Term.code, Term.code, List.cons.injEq, (Term.splits_code a a').append_eq_iff] at h
    exact ⟨a', s', rfl, h.2⟩
  | _ => simp [Term.code] at h

lemma Term.code_eq_lit {l : Literal} (h : (Term.lit l).code = b.code) : b = .lit l := by
  cases b <;> simp_all [Term.code, Literal.code_eq_iff]

lemma Term.code_eq_letIn {bound rest : Term}
    (h : (Term.letIn v bound rest trace).code = b.code) :
    ∃ v' bound' rest', b = .letIn v' bound' rest' trace ∧ v.code = v'.code ∧
      bound.code = bound'.code ∧ rest.code = rest'.code := by
  cases b with
  | letIn v' bound' rest' trace' =>
    simp only [Term.code, List.cons.injEq, true_and, List.append_assoc,
      (Var.splits_code v v').append_eq_iff, (Term.splits_code bound bound').append_eq_iff,
      (Term.splits_code rest rest').append_eq_iff, Trace.code_eq_iff] at h
    obtain ⟨hv, hbound, hrest, rfl⟩ := h
    exact ⟨v', bound', rest', rfl, hv, hbound, hrest⟩
  | _ => simp [Term.code] at h

lemma Term.code_eq_state {stmt rest : Term} (h : (Term.state stmt rest trace).code = b.code) :
    ∃ stmt' rest', b = .state stmt' rest' trace ∧ stmt.code = stmt'.code ∧
      rest.code = rest'.code := by
  cases b with
  | state stmt' rest' trace' =>
    simp only [Term.code, List.cons.injEq, true_and, List.append_assoc,
      (Term.splits_code stmt stmt').append_eq_iff, (Term.splits_code rest rest').append_eq_iff,
      Trace.code_eq_iff] at h
    obtain ⟨hstmt, hrest, rfl⟩ := h
    exact ⟨stmt', rest', rfl, hstmt, hrest⟩
  | _ => simp [Term.code] at h

lemma Term.code_eq_op (h : (Term.op o args s).code = b.code) :
    ∃ args' s', b = .op o args' s' ∧ Term.codeAll args = Term.codeAll args' ∧
      s.code = s'.code := by
  cases b with
  | op o' args' s' =>
    simp only [Term.code, List.cons.injEq, true_and, List.append_assoc,
      (Op.splits_code o o').append_eq_iff, (Term.splits_codeAll args args').append_eq_iff,
      Op.code_eq_iff] at h
    obtain ⟨rfl, hargs, hty⟩ := h
    exact ⟨args', s', rfl, hargs, hty⟩
  | _ => simp [Term.code] at h

lemma Term.code_eq_call {key : Key} {kind : PointKind} {vs : List Var}
    (h : (Term.call key kind vs s).code = b.code) :
    ∃ vs' s', b = .call key kind vs' s' ∧ Var.codeAll vs = Var.codeAll vs' ∧
      s.code = s'.code := by
  cases b with
  | call key' kind' vs' s' =>
    simp only [Term.code, List.cons.injEq, true_and, (Var.splits_codeAll vs vs').append_eq_iff,
      Int.natCast_inj, Key.symbol_eq_iff, PointKind.rank_eq_iff] at h
    obtain ⟨rfl, rfl, hargs, hty⟩ := h
    exact ⟨vs', s', rfl, hargs, hty⟩
  | _ => simp [Term.code] at h

lemma Term.codeAll_eq_nil {bs : List Term} (h : Term.codeAll [] = Term.codeAll bs) : bs = [] := by
  cases bs <;> simp_all [Term.codeAll]

lemma Term.codeAll_eq_cons {as bs : List Term} (h : Term.codeAll (a :: as) = Term.codeAll bs) :
    ∃ a' as', bs = a' :: as' ∧ a.code = a'.code ∧ Term.codeAll as = Term.codeAll as' := by
  cases bs with
  | nil => simp [Term.codeAll] at h
  | cons a' as' =>
    rw [Term.codeAll, Term.codeAll, List.cons.injEq, (Term.splits_code a a').append_eq_iff] at h
    exact ⟨a', as', rfl, h.2⟩

lemma Fields.code_eq_nil {n : Fields Term} (h : Fields.code [] = Fields.code n) : n = [] := by
  rw [Fields.code_eq_iff] at h
  exact List.map_eq_nil_iff.1 h.symm

lemma Env.codeFields_eq_cons {keep : Name → Bool} {x : Name} {m : List (Name × Term)}
    {n : Fields Term} (hx : keep x = true)
    (h : Env.codeFields keep ((x, a) :: m) = Fields.code n) :
    ∃ a' n', n = (x, a') :: n' ∧ a.code = a'.code ∧ Env.codeFields keep m = Fields.code n' := by
  cases n with
  | nil => simp [Fields.code, Env.codeFields, hx] at h
  | cons e n' =>
    obtain ⟨y, a'⟩ := e
    simp only [Fields.code, Env.codeFields, hx, if_true, List.cons.injEq, true_and,
      (Term.splits_code a a').append_eq_iff, Int.natCast_inj, Name.index_eq_iff] at h
    obtain ⟨rfl, ha, hm⟩ := h
    exact ⟨a', n', rfl, ha, hm⟩

end Inversion

end Residual
