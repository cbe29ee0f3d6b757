import Residual.Proofs.Typed.Symbols

/-!
Values whose environments were entered in one table.

Two entered environments are taken for equal if their symbols are. That is right where the table
has, under the symbol of every entered environment in sight, the bindings of this environment. Then
symbols never say anything but what the content says: comparing by symbol gives the answers that
comparing by content gives, for types, for terms with or without code in them, and for environments.
-/

namespace Residual

mutual

/-- Entered environments in the type stand in `table` under their symbols. -/
def Ty.Entered (table : EnvTable) : Ty → Prop
  | .prim _ | .lit _ | .recur _ => True
  | .list items | .union items => Ty.AllEntered table items
  | .map fields _ => Ty.FieldsEntered table fields
  | .layout _ env _ => env.Entered table
  | .closure dom range => dom.Entered table ∧ range.Entered table
  | .array _ elem => elem.Entered table
  | .foreign _ parts => ForeignPart.AllEntered table parts

def Ty.AllEntered (table : EnvTable) : List Ty → Prop
  | [] => True
  | t :: rest => t.Entered table ∧ Ty.AllEntered table rest

def Ty.FieldsEntered (table : EnvTable) : List (Name × Ty) → Prop
  | [] => True
  | (_, t) :: rest => t.Entered table ∧ Ty.FieldsEntered table rest

def ForeignPart.Entered (table : EnvTable) : ForeignPart → Prop
  | .text _ => True
  | .type t => t.Entered table

def ForeignPart.AllEntered (table : EnvTable) : List ForeignPart → Prop
  | [] => True
  | p :: rest => p.Entered table ∧ ForeignPart.AllEntered table rest

def Var.Entered (table : EnvTable) : Var → Prop
  | ⟨_, t⟩ => t.Entered table

def Var.AllEntered (table : EnvTable) : List Var → Prop
  | [] => True
  | v :: rest => v.Entered table ∧ Var.AllEntered table rest

/-- Entered environments in the term stand in `table` under their symbols. -/
def Term.Entered (table : EnvTable) : Term → Prop
  | .type t => t.Entered table
  | .var v => v.Entered table
  | .tuple items => Term.AllEntered table items
  | .map env _ => env.Entered table
  | .box inner ty => inner.Entered table ∧ ty.Entered table
  | .lit _ => True
  | .letIn bind bound rest _ => bind.Entered table ∧ bound.Entered table ∧ rest.Entered table
  | .state stmt rest _ => stmt.Entered table ∧ rest.Entered table
  | .op _ args ty => Term.AllEntered table args ∧ ty.Entered table
  | .call _ _ args ty => Var.AllEntered table args ∧ ty.Entered table

def Term.AllEntered (table : EnvTable) : List Term → Prop
  | [] => True
  | t :: rest => t.Entered table ∧ Term.AllEntered table rest

/-- The environment, if it is entered, and those in its visible bindings stand in `table` under
their symbols. -/
def Env.Entered (table : EnvTable) : Env → Prop
  | .plain m => Env.FieldsEntered table (fun _ => true) m
  | .restricted m used => Env.FieldsEntered table used.contains m
  | .consed symbol m =>
    table.entries[symbol]? = some m ∧ Env.FieldsEntered table (fun _ => true) m

def Env.FieldsEntered (table : EnvTable) (keep : Name → Bool) : List (Name × Term) → Prop
  | [] => True
  | (x, t) :: rest => (keep x = true → t.Entered table) ∧ Env.FieldsEntered table keep rest

end

section Parts

variable {table : EnvTable}

lemma Ty.allEntered_iff {ts : List Ty} : Ty.AllEntered table ts ↔ ∀ t ∈ ts, t.Entered table := by
  induction ts with
  | nil => simp [Ty.AllEntered]
  | cons t rest ih => simp [Ty.AllEntered, ih]

lemma Var.entered_iff {v : Var} : v.Entered table ↔ v.ty.Entered table := by
  cases v
  rfl

lemma Env.fieldsEntered_iff {keep : Name → Bool} {m : List (Name × Term)} :
    Env.FieldsEntered table keep m ↔ ∀ e ∈ m, keep e.1 = true → e.2.Entered table := by
  induction m with
  | nil => simp [Env.FieldsEntered]
  | cons e rest ih => simp [Env.FieldsEntered, ih]

lemma Env.entered_plain_iff {m : Fields Term} :
    (Env.plain m).Entered table ↔ ∀ e ∈ m, e.2.Entered table := by
  rw [Env.Entered, Env.fieldsEntered_iff]
  exact forall₂_congr fun _ _ => ⟨fun h => h rfl, fun h _ => h⟩

/-- The visible values of an entered environment are entered. -/
theorem Env.Entered.visible {env : Env} (h : env.Entered table) :
    ∀ e ∈ env.visible, e.2.Entered table := by
  cases env with
  | plain m => exact Env.entered_plain_iff.1 h
  | restricted m used =>
    exact fun e he =>
      Env.fieldsEntered_iff.1 h e (List.mem_filter.1 he).1 (List.mem_filter.1 he).2
  | consed s m => exact Env.entered_plain_iff.1 h.2

end Parts

/-! ### Types of entered values -/

section Types

variable {table : EnvTable}

mutual

lemma Term.Entered.ty (t : Term) (h : t.Entered table) : t.ty.Entered table := by
  match t with
  | .type t => exact h
  | .var ⟨_, t⟩ => exact h
  | .tuple items => exact Term.AllEntered.tys items h
  | .map env _ => exact Env.Entered.tys env h
  | .box _ ty => exact h.2
  | .lit _ => trivial
  | .letIn _ _ rest _ => exact Term.Entered.ty rest h.2.2
  | .state _ rest _ => exact Term.Entered.ty rest h.2
  | .op _ _ ty => exact h.2
  | .call _ _ _ ty => exact h.2
termination_by structural t

lemma Term.AllEntered.tys (ts : List Term) (h : Term.AllEntered table ts) :
    Ty.AllEntered table (Term.tys ts) := by
  match ts with
  | [] => trivial
  | t :: rest => exact ⟨Term.Entered.ty t h.1, Term.AllEntered.tys rest h.2⟩
termination_by structural ts

lemma Env.Entered.tys (env : Env) (h : env.Entered table) :
    Ty.FieldsEntered table (Term.envTys env) := by
  match env with
  | .plain m => exact Env.FieldsEntered.tys _ m h
  | .restricted m used => exact Env.FieldsEntered.tys _ m h
  | .consed _ m => exact Env.FieldsEntered.tys _ m h.2
termination_by structural env

lemma Env.FieldsEntered.tys (keep : Name → Bool) (m : List (Name × Term))
    (h : Env.FieldsEntered table keep m) : Ty.FieldsEntered table (Term.fieldTys keep m) := by
  match m with
  | [] => trivial
  | (x, t) :: rest =>
    rw [Term.fieldTys]
    split
    · rename_i hx
      exact ⟨Term.Entered.ty t (h.1 hx), Env.FieldsEntered.tys keep rest h.2⟩
    · exact Env.FieldsEntered.tys keep rest h.2
termination_by structural m

end

end Types

/-! ### Later tables -/

section Later

variable {table later : EnvTable}

mutual

/-- What was entered stays entered. -/
theorem Ty.Entered.mono (hlater : table.Extends later) (t : Ty) (h : t.Entered table) :
    t.Entered later := by
  match t with
  | .prim _ | .lit _ | .recur _ => trivial
  | .list items | .union items => exact Ty.AllEntered.mono hlater items h
  | .map fields _ => exact Ty.FieldsEntered.mono hlater fields h
  | .layout _ env _ => exact Env.Entered.mono hlater env h
  | .closure dom range => exact ⟨Ty.Entered.mono hlater dom h.1, Ty.Entered.mono hlater range h.2⟩
  | .array _ elem => exact Ty.Entered.mono hlater elem h
  | .foreign _ parts => exact ForeignPart.AllEntered.mono hlater parts h
termination_by structural t

lemma Ty.AllEntered.mono (hlater : table.Extends later) (ts : List Ty)
    (h : Ty.AllEntered table ts) : Ty.AllEntered later ts := by
  match ts with
  | [] => trivial
  | t :: rest => exact ⟨Ty.Entered.mono hlater t h.1, Ty.AllEntered.mono hlater rest h.2⟩
termination_by structural ts

lemma Ty.FieldsEntered.mono (hlater : table.Extends later) (m : List (Name × Ty))
    (h : Ty.FieldsEntered table m) : Ty.FieldsEntered later m := by
  match m with
  | [] => trivial
  | (_, t) :: rest => exact ⟨Ty.Entered.mono hlater t h.1, Ty.FieldsEntered.mono hlater rest h.2⟩
termination_by structural m

lemma ForeignPart.Entered.mono (hlater : table.Extends later) (p : ForeignPart)
    (h : p.Entered table) : p.Entered later := by
  match p with
  | .text _ => trivial
  | .type t => exact Ty.Entered.mono hlater t h
termination_by structural p

lemma ForeignPart.AllEntered.mono (hlater : table.Extends later) (ps : List ForeignPart)
    (h : ForeignPart.AllEntered table ps) : ForeignPart.AllEntered later ps := by
  match ps with
  | [] => trivial
  | p :: rest =>
    exact ⟨ForeignPart.Entered.mono hlater p h.1, ForeignPart.AllEntered.mono hlater rest h.2⟩
termination_by structural ps

lemma Var.Entered.mono (hlater : table.Extends later) (v : Var) (h : v.Entered table) :
    v.Entered later := by
  match v with
  | ⟨_, t⟩ => exact Ty.Entered.mono hlater t h
termination_by structural v

lemma Var.AllEntered.mono (hlater : table.Extends later) (vs : List Var)
    (h : Var.AllEntered table vs) : Var.AllEntered later vs := by
  match vs with
  | [] => trivial
  | v :: rest => exact ⟨Var.Entered.mono hlater v h.1, Var.AllEntered.mono hlater rest h.2⟩
termination_by structural vs

lemma Term.Entered.mono (hlater : table.Extends later) (t : Term) (h : t.Entered table) :
    t.Entered later := by
  match t with
  | .lit _ => trivial
  | .type t => exact Ty.Entered.mono hlater t h
  | .var v => exact Var.Entered.mono hlater v h
  | .tuple items => exact Term.AllEntered.mono hlater items h
  | .map env _ => exact Env.Entered.mono hlater env h
  | .box inner ty => exact ⟨Term.Entered.mono hlater inner h.1, Ty.Entered.mono hlater ty h.2⟩
  | .letIn bind bound rest _ =>
    exact ⟨Var.Entered.mono hlater bind h.1, Term.Entered.mono hlater bound h.2.1,
      Term.Entered.mono hlater rest h.2.2⟩
  | .state stmt rest _ =>
    exact ⟨Term.Entered.mono hlater stmt h.1, Term.Entered.mono hlater rest h.2⟩
  | .op _ args ty => exact ⟨Term.AllEntered.mono hlater args h.1, Ty.Entered.mono hlater ty h.2⟩
  | .call _ _ args ty => exact ⟨Var.AllEntered.mono hlater args h.1, Ty.Entered.mono hlater ty h.2⟩
termination_by structural t

lemma Term.AllEntered.mono (hlater : table.Extends later) (ts : List Term)
    (h : Term.AllEntered table ts) : Term.AllEntered later ts := by
  match ts with
  | [] => trivial
  | t :: rest => exact ⟨Term.Entered.mono hlater t h.1, Term.AllEntered.mono hlater rest h.2⟩
termination_by structural ts

lemma Env.Entered.mono (hlater : table.Extends later) (env : Env) (h : env.Entered table) :
    env.Entered later := by
  match env with
  | .plain m => exact Env.FieldsEntered.mono hlater _ m h
  | .restricted m used => exact Env.FieldsEntered.mono hlater _ m h
  | .consed s m => exact ⟨hlater.getElem? h.1, Env.FieldsEntered.mono hlater _ m h.2⟩
termination_by structural env

lemma Env.FieldsEntered.mono (hlater : table.Extends later) (keep : Name → Bool)
    (m : List (Name × Term)) (h : Env.FieldsEntered table keep m) :
    Env.FieldsEntered later keep m := by
  match m with
  | [] => trivial
  | (x, t) :: rest =>
    exact ⟨fun hx => Term.Entered.mono hlater t (h.1 hx),
      Env.FieldsEntered.mono hlater keep rest h.2⟩
termination_by structural m

end

end Later

/-! ### Symbols say what the content says -/

section Compared

variable {table : EnvTable}

mutual

lemma Ty.Entered.compared (a b : Ty) (ha : a.Entered table) (hb : b.Entered table) :
    a.beq .symbol b = a.beq .content b ∧ a.cmp .symbol b = a.cmp .content b := by
  -- Both ways of comparing first look at the constructors, where they do the same.
  match a with
  | .prim _ | .lit _ | .recur _ => cases b <;> exact ⟨rfl, rfl⟩
  -- One constructor: they differ in the environments inside, which are entered.
  | .list as =>
    cases b with
    | list bs => exact Ty.AllEntered.compared as bs ha hb
    | _ => exact ⟨rfl, rfl⟩
  | .union as =>
    cases b with
    | union bs => exact Ty.AllEntered.compared as bs ha hb
    | _ => exact ⟨rfl, rfl⟩
  | .map as k =>
    cases b with
    | map bs l =>
      obtain ⟨hbeq, hcmp⟩ := Ty.FieldsEntered.compared as bs ha hb
      simp only [Ty.beq, Ty.cmp, hbeq, hcmp, and_self]
    | _ => exact ⟨rfl, rfl⟩
  | .layout l e k =>
    cases b with
    | layout m f j =>
      obtain ⟨hbeq, hcmp⟩ := Env.Entered.compared e f ha hb
      simp only [Ty.beq, Ty.cmp, hbeq, hcmp, and_self]
    | _ => exact ⟨rfl, rfl⟩
  | .closure a₁ a₂ =>
    cases b with
    | closure b₁ b₂ =>
      obtain ⟨hbeq, hcmp⟩ := Ty.Entered.compared a₁ b₁ ha.1 hb.1
      obtain ⟨hbeq', hcmp'⟩ := Ty.Entered.compared a₂ b₂ ha.2 hb.2
      simp only [Ty.beq, Ty.cmp, hbeq, hcmp, hbeq', hcmp', and_self]
    | _ => exact ⟨rfl, rfl⟩
  | .array s a =>
    cases b with
    | array t b =>
      obtain ⟨hbeq, hcmp⟩ := Ty.Entered.compared a b ha hb
      simp only [Ty.beq, Ty.cmp, hbeq, hcmp, and_self]
    | _ => exact ⟨rfl, rfl⟩
  | .foreign t ps =>
    cases b with
    | foreign u qs =>
      obtain ⟨hbeq, hcmp⟩ := ForeignPart.AllEntered.compared ps qs ha hb
      simp only [Ty.beq, Ty.cmp, hbeq, hcmp, and_self]
    | _ => exact ⟨rfl, rfl⟩
termination_by structural a

lemma Ty.AllEntered.compared (as bs : List Ty) (ha : Ty.AllEntered table as)
    (hb : Ty.AllEntered table bs) :
    Ty.beqAll .symbol as bs = Ty.beqAll .content as bs ∧
      Ty.cmpAll .symbol as bs = Ty.cmpAll .content as bs := by
  match as, bs with
  | [], [] | [], _ :: _ | _ :: _, [] => exact ⟨rfl, rfl⟩
  | a :: as, b :: bs =>
    obtain ⟨hbeq, hcmp⟩ := Ty.Entered.compared a b ha.1 hb.1
    obtain ⟨hbeq', hcmp'⟩ := Ty.AllEntered.compared as bs ha.2 hb.2
    simp only [Ty.beqAll, Ty.cmpAll, hbeq, hcmp, hbeq', hcmp', and_self]
termination_by structural as

lemma Ty.FieldsEntered.compared (as bs : List (Name × Ty)) (ha : Ty.FieldsEntered table as)
    (hb : Ty.FieldsEntered table bs) :
    Ty.beqFields .symbol as bs = Ty.beqFields .content as bs ∧
      Ty.cmpFields .symbol as bs = Ty.cmpFields .content as bs := by
  match as, bs with
  | [], [] | [], _ :: _ | _ :: _, [] => exact ⟨rfl, rfl⟩
  | (x, a) :: as, (y, b) :: bs =>
    obtain ⟨hbeq, hcmp⟩ := Ty.Entered.compared a b ha.1 hb.1
    obtain ⟨hbeq', hcmp'⟩ := Ty.FieldsEntered.compared as bs ha.2 hb.2
    simp only [Ty.beqFields, Ty.cmpFields, hbeq, hcmp, hbeq', hcmp', and_self]
termination_by structural as

lemma ForeignPart.Entered.compared (a b : ForeignPart) (ha : a.Entered table)
    (hb : b.Entered table) :
    a.beq .symbol b = a.beq .content b ∧ a.cmp .symbol b = a.cmp .content b := by
  match a with
  | .text _ => cases b <;> exact ⟨rfl, rfl⟩
  | .type a =>
    cases b with
    | text _ => exact ⟨rfl, rfl⟩
    | type b => exact Ty.Entered.compared a b ha hb
termination_by structural a

lemma ForeignPart.AllEntered.compared (as bs : List ForeignPart)
    (ha : ForeignPart.AllEntered table as) (hb : ForeignPart.AllEntered table bs) :
    ForeignPart.beqAll .symbol as bs = ForeignPart.beqAll .content as bs ∧
      ForeignPart.cmpAll .symbol as bs = ForeignPart.cmpAll .content as bs := by
  match as, bs with
  | [], [] | [], _ :: _ | _ :: _, [] => exact ⟨rfl, rfl⟩
  | a :: as, b :: bs =>
    obtain ⟨hbeq, hcmp⟩ := ForeignPart.Entered.compared a b ha.1 hb.1
    obtain ⟨hbeq', hcmp'⟩ := ForeignPart.AllEntered.compared as bs ha.2 hb.2
    simp only [ForeignPart.beqAll, ForeignPart.cmpAll, hbeq, hcmp, hbeq', hcmp', and_self]
termination_by structural as

lemma Var.Entered.compared (a b : Var) (ha : a.Entered table) (hb : b.Entered table) :
    a.beq .symbol b = a.beq .content b ∧ a.cmp .symbol b = a.cmp .content b := by
  match a with
  | ⟨t, a⟩ =>
    obtain ⟨hbeq, hcmp⟩ := Ty.Entered.compared a b.ty ha (Var.entered_iff.1 hb)
    simp only [Var.beq, Var.cmp, hbeq, hcmp, and_self]
termination_by structural a

lemma Var.AllEntered.compared (as bs : List Var) (ha : Var.AllEntered table as)
    (hb : Var.AllEntered table bs) :
    Var.beqAll .symbol as bs = Var.beqAll .content as bs ∧
      Var.cmpAll .symbol as bs = Var.cmpAll .content as bs := by
  match as, bs with
  | [], [] | [], _ :: _ | _ :: _, [] => exact ⟨rfl, rfl⟩
  | a :: as, b :: bs =>
    obtain ⟨hbeq, hcmp⟩ := Var.Entered.compared a b ha.1 hb.1
    obtain ⟨hbeq', hcmp'⟩ := Var.AllEntered.compared as bs ha.2 hb.2
    simp only [Var.beqAll, Var.cmpAll, hbeq, hcmp, hbeq', hcmp', and_self]
termination_by structural as

lemma Term.Entered.compared (a b : Term) (ha : a.Entered table) (hb : b.Entered table) :
    a.beq .symbol b = a.beq .content b ∧ a.cmp .symbol b = a.cmp .content b := by
  -- As for types: other constructors first, then the parts of one.
  match a with
  | .lit _ => cases b <;> exact ⟨rfl, rfl⟩
  | .type a =>
    cases b with
    | type b => exact Ty.Entered.compared a b ha hb
    | _ => exact ⟨rfl, rfl⟩
  | .var v =>
    cases b with
    | var w => exact Var.Entered.compared v w ha hb
    | _ => exact ⟨rfl, rfl⟩
  | .tuple as =>
    cases b with
    | tuple bs => exact Term.AllEntered.compared as bs ha hb
    | _ => exact ⟨rfl, rfl⟩
  | .map e k =>
    cases b with
    | map f l =>
      obtain ⟨hbeq, hcmp⟩ := Env.Entered.compared e f ha hb
      simp only [Term.beq, Term.cmp, hbeq, hcmp, and_self]
    | _ => exact ⟨rfl, rfl⟩
  | .box a s =>
    cases b with
    | box b t =>
      obtain ⟨hbeq, hcmp⟩ := Term.Entered.compared a b ha.1 hb.1
      obtain ⟨hbeq', hcmp'⟩ := Ty.Entered.compared s t ha.2 hb.2
      simp only [Term.beq, Term.cmp, hbeq, hcmp, hbeq', hcmp', and_self]
    | _ => exact ⟨rfl, rfl⟩
  -- Positions are not compared.
  | .letIn v a r s =>
    cases b with
    | letIn w b q t =>
      obtain ⟨hbind, hbind'⟩ := Var.Entered.compared v w ha.1 hb.1
      obtain ⟨hbound, hbound'⟩ := Term.Entered.compared a b ha.2.1 hb.2.1
      obtain ⟨hrest, hrest'⟩ := Term.Entered.compared r q ha.2.2 hb.2.2
      simp only [Term.beq, Term.cmp, hbind, hbind', hbound, hbound', hrest, hrest', and_self]
    | _ => exact ⟨rfl, rfl⟩
  | .state a r s =>
    cases b with
    | state b q t =>
      obtain ⟨hstmt, hstmt'⟩ := Term.Entered.compared a b ha.1 hb.1
      obtain ⟨hrest, hrest'⟩ := Term.Entered.compared r q ha.2 hb.2
      simp only [Term.beq, Term.cmp, hstmt, hstmt', hrest, hrest', and_self]
    | _ => exact ⟨rfl, rfl⟩
  | .op o as s =>
    cases b with
    | op p bs t =>
      obtain ⟨hbeq, hcmp⟩ := Term.AllEntered.compared as bs ha.1 hb.1
      obtain ⟨hbeq', hcmp'⟩ := Ty.Entered.compared s t ha.2 hb.2
      simp only [Term.beq, Term.cmp, hbeq, hcmp, hbeq', hcmp', and_self]
    | _ => exact ⟨rfl, rfl⟩
  | .call k j vs s =>
    cases b with
    | call l m ws t =>
      obtain ⟨hbeq, hcmp⟩ := Var.AllEntered.compared vs ws ha.1 hb.1
      obtain ⟨hbeq', hcmp'⟩ := Ty.Entered.compared s t ha.2 hb.2
      simp only [Term.beq, Term.cmp, hbeq, hcmp, hbeq', hcmp', and_self]
    | _ => exact ⟨rfl, rfl⟩
termination_by structural a

lemma Term.AllEntered.compared (as bs : List Term) (ha : Term.AllEntered table as)
    (hb : Term.AllEntered table bs) :
    Term.beqAll .symbol as bs = Term.beqAll .content as bs ∧
      Term.cmpAll .symbol as bs = Term.cmpAll .content as bs := by
  match as, bs with
  | [], [] | [], _ :: _ | _ :: _, [] => exact ⟨rfl, rfl⟩
  | a :: as, b :: bs =>
    obtain ⟨hbeq, hcmp⟩ := Term.Entered.compared a b ha.1 hb.1
    obtain ⟨hbeq', hcmp'⟩ := Term.AllEntered.compared as bs ha.2 hb.2
    simp only [Term.beqAll, Term.cmpAll, hbeq, hcmp, hbeq', hcmp', and_self]
termination_by structural as

lemma Env.Entered.compared (a b : Env) (ha : a.Entered table) (hb : b.Entered table) :
    a.beq .symbol b = a.beq .content b ∧ a.cmp .symbol b = a.cmp .content b := by
  match a with
  | .plain m => exact Env.FieldsEntered.compared _ m b.visible ha hb.visible
  | .restricted m used => exact Env.FieldsEntered.compared _ m b.visible ha hb.visible
  | .consed s m =>
    obtain ⟨hbeq, hcmp⟩ := Env.FieldsEntered.compared _ m b.visible ha.2 hb.visible
    simp only [Env.beq, Env.cmp, hbeq, hcmp, Identity.accepts_content, Bool.false_or]
    cases hs : Identity.symbol.accepts s b with
    | false => exact ⟨rfl, rfl⟩
    | true =>
      -- The same symbol: both hold what the table has under it.
      cases b with
      | consed s' m' =>
        obtain rfl : s = s' := by simpa [Identity.accepts] using hs
        obtain rfl : m = m' := Option.some.inj (ha.1.symm.trans hb.1)
        have hself := Env.beq_refl .content (.plain m)
        have hcode := Env.cmp_content (.plain m) (.plain m)
        rw [Code.cmp_self] at hcode
        exact ⟨hself.symm, hcode.symm⟩
      | _ => cases hs
termination_by structural a

lemma Env.FieldsEntered.compared (keep : Name → Bool) (as bs : List (Name × Term))
    (ha : Env.FieldsEntered table keep as) (hb : ∀ e ∈ bs, e.2.Entered table) :
    Env.beqFields .symbol keep as bs = Env.beqFields .content keep as bs ∧
      Env.cmpFields .symbol keep as bs = Env.cmpFields .content keep as bs := by
  match as with
  | [] => exact ⟨rfl, rfl⟩
  | (x, a) :: as =>
    by_cases hx : keep x = true
    · cases bs with
      | nil => simp only [Env.beqFields, Env.cmpFields, hx, if_true, and_self]
      | cons b bs =>
        obtain ⟨hb, hbs⟩ := List.forall_mem_cons.1 hb
        obtain ⟨hbeq, hcmp⟩ := Term.Entered.compared a b.2 (ha.1 hx) hb
        obtain ⟨hbeq', hcmp'⟩ := Env.FieldsEntered.compared keep as bs ha.2 hbs
        simp only [Env.beqFields, Env.cmpFields, hx, if_true, hbeq, hcmp, hbeq', hcmp', and_self]
    · simp only [Env.beqFields, Env.cmpFields, if_neg hx]
      exact Env.FieldsEntered.compared keep as bs ha.2 hb
termination_by structural as

end

end Compared

/-! ### Comparing is comparing codes -/

section Codes

variable {table : EnvTable}

lemma Ty.Entered.beq_iff {a b : Ty} (ha : a.Entered table) (hb : b.Entered table) :
    (a == b) = true ↔ a.code = b.code := by
  rw [Ty.beq_eq, (Ty.Entered.compared a b ha hb).1, Ty.beq_content_iff]

lemma Ty.Entered.cmp_eq {a b : Ty} (ha : a.Entered table) (hb : b.Entered table) :
    a.cmp .symbol b = Code.cmp a.code b.code := by
  rw [(Ty.Entered.compared a b ha hb).2, Ty.cmp_content]

lemma ForeignPart.Entered.beq_iff {a b : ForeignPart} (ha : a.Entered table)
    (hb : b.Entered table) : a.beq .symbol b = true ↔ a.code = b.code := by
  rw [(ForeignPart.Entered.compared a b ha hb).1, ForeignPart.beq_content_iff]

lemma ForeignPart.Entered.cmp_eq {a b : ForeignPart} (ha : a.Entered table)
    (hb : b.Entered table) : a.cmp .symbol b = Code.cmp a.code b.code := by
  rw [(ForeignPart.Entered.compared a b ha hb).2, ForeignPart.cmp_content]

lemma Term.Entered.beq_iff {a b : Term} (ha : a.Entered table) (hb : b.Entered table) :
    (a == b) = true ↔ a.code = b.code := by
  rw [Term.beq_eq, (Term.Entered.compared a b ha hb).1, Term.beq_content_iff]

lemma Term.Entered.cmp_eq {a b : Term} (ha : a.Entered table) (hb : b.Entered table) :
    a.cmp .symbol b = Code.cmp a.code b.code := by
  rw [(Term.Entered.compared a b ha hb).2, Term.cmp_content]

lemma Env.Entered.beq_iff {a b : Env} (ha : a.Entered table) (hb : b.Entered table) :
    (a == b) = true ↔ a.code = b.code := by
  rw [Env.beq_eq, (Env.Entered.compared a b ha hb).1, Env.beq_content_iff]

lemma Env.Entered.cmp_eq {a b : Env} (ha : a.Entered table) (hb : b.Entered table) :
    a.cmp .symbol b = Code.cmp a.code b.code := by
  rw [(Env.Entered.compared a b ha hb).2, Env.cmp_content]

end Codes

end Residual
