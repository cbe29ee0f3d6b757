import Residual.Proofs.Typed.Entered
import Residual.Proofs.Typed.RenameFormed
import Residual.Proofs.Typed.Rules

/-!
Sound types and values.

A packed map has an environment inside its type. Such types are compared by the symbols of their
environments, so they are told apart as they should be only where the symbols mean what the table
of environments says. A type is sound if this holds for all environments in it, and if the
recursive types in it are known. A value is sound if its types are, and a miss in it has no result.
Where it is asked for, packed environments have one type for each tag, and boxes hold members of
their unions.

Main statement: sound types that are equal have the same content.
-/

namespace Residual

/-- What is asked of types and code: that every node obeys its rule, that every variable has the
type of its binder, and that only known recursive types occur. -/
structure Demands where
  typed : Prop
  tracked : Prop
  known : Key → Prop

/-- What types are judged by: the entered environments, and what is asked of them. -/
structure Ground where
  envs : EnvTable
  asks : Demands

mutual

def Ty.Sound (g : Ground) : Ty → Prop
  | .prim _ | .lit _ => True
  | .list items | .union items => Ty.AllSound g items
  | .map fields _ => Ty.FieldsSound g fields
  | .layout _ env _ => env.Sound g true ∧ (g.asks.tracked → Var.OneType env.vars)
  | .closure dom range => dom.Sound g ∧ range.Sound g
  | .recur key => g.asks.known key
  | .array _ elem => elem.Sound g
  | .foreign _ parts => ForeignPart.AllSound g parts

def Ty.AllSound (g : Ground) : List Ty → Prop
  | [] => True
  | t :: rest => t.Sound g ∧ Ty.AllSound g rest

def Ty.FieldsSound (g : Ground) : List (Name × Ty) → Prop
  | [] => True
  | (_, t) :: rest => t.Sound g ∧ Ty.FieldsSound g rest

def ForeignPart.Sound (g : Ground) : ForeignPart → Prop
  | .text _ => True
  | .type t => t.Sound g

def ForeignPart.AllSound (g : Ground) : List ForeignPart → Prop
  | [] => True
  | p :: rest => p.Sound g ∧ ForeignPart.AllSound g rest

def Var.Sound (g : Ground) : Var → Prop
  | ⟨_, t⟩ => t.Sound g

/-- A sound value. If it is `held` inside a type, its entered environments are those of the
table. -/
def Term.Sound (g : Ground) (held : Bool) : Term → Prop
  | .type t => t.Sound g
  | .var v => v.Sound g
  | .tuple items => Term.AllSound g held items
  | .map env _ => env.Sound g held
  | .box inner ty => inner.Sound g held ∧ ty.Sound g ∧ (g.asks.typed → (Term.box inner ty).Obeys)
  | .lit _ => True
  | .op _ args ty => Term.AllSound g held args ∧ ty = .unit
  | .letIn _ _ _ _ | .state _ _ _ | .call _ _ _ _ => False

def Term.AllSound (g : Ground) (held : Bool) : List Term → Prop
  | [] => True
  | t :: rest => t.Sound g held ∧ Term.AllSound g held rest

/-- The visible bindings are sound. -/
def Env.Sound (g : Ground) (held : Bool) : Env → Prop
  | .plain m => Env.FieldsSound g held (fun _ => true) m
  | .restricted m used => Env.FieldsSound g held used.contains m
  | .consed symbol m =>
    (held = true → g.envs.entries[symbol]? = some m) ∧ Env.FieldsSound g held (fun _ => true) m

def Env.FieldsSound (g : Ground) (held : Bool) (keep : Name → Bool) : List (Name × Term) → Prop
  | [] => True
  | (x, t) :: rest => (keep x = true → t.Sound g held) ∧ Env.FieldsSound g held keep rest

end

section Parts

variable {g : Ground} {held : Bool}

lemma Ty.allSound_iff {ts : List Ty} : Ty.AllSound g ts ↔ ∀ t ∈ ts, t.Sound g := by
  induction ts with
  | nil => simp [Ty.AllSound]
  | cons t rest ih => simp [Ty.AllSound, ih]

lemma Ty.fieldsSound_iff {m : List (Name × Ty)} :
    Ty.FieldsSound g m ↔ ∀ e ∈ m, e.2.Sound g := by
  induction m with
  | nil => simp [Ty.FieldsSound]
  | cons e rest ih => simp [Ty.FieldsSound, ih]

lemma ForeignPart.allSound_iff {ps : List ForeignPart} :
    ForeignPart.AllSound g ps ↔ ∀ p ∈ ps, p.Sound g := by
  induction ps with
  | nil => simp [ForeignPart.AllSound]
  | cons p rest ih => simp [ForeignPart.AllSound, ih]

lemma Var.sound_iff {v : Var} : v.Sound g ↔ v.ty.Sound g := by
  cases v
  rfl

lemma Term.allSound_iff {ts : List Term} :
    Term.AllSound g held ts ↔ ∀ t ∈ ts, t.Sound g held := by
  induction ts with
  | nil => simp [Term.AllSound]
  | cons t rest ih => simp [Term.AllSound, ih]

lemma Env.fieldsSound_iff {keep : Name → Bool} {m : List (Name × Term)} :
    Env.FieldsSound g held keep m ↔ ∀ e ∈ m, keep e.1 = true → e.2.Sound g held := by
  induction m with
  | nil => simp [Env.FieldsSound]
  | cons e rest ih => simp [Env.FieldsSound, ih]

/-- The visible values of a sound environment are sound. -/
theorem Env.Sound.visible {env : Env} (h : env.Sound g held) :
    ∀ e ∈ env.visible, e.2.Sound g held := by
  cases env with
  | plain m => exact fun e he => Env.fieldsSound_iff.1 h e he rfl
  | restricted m used =>
    exact fun e he =>
      Env.fieldsSound_iff.1 h e (List.mem_filter.1 he).1 (List.mem_filter.1 he).2
  | consed s m => exact fun e he => Env.fieldsSound_iff.1 h.2 e he rfl

lemma Env.sound_plain {m : Fields Term} (h : ∀ e ∈ m, e.2.Sound g held) :
    (Env.plain m).Sound g held :=
  Env.fieldsSound_iff.2 fun e he _ => h e he

end Parts

/-! ### More environments -/

/-- The second ground has the environments of the first, and asks for the same. -/
structure Ground.Le (g g' : Ground) : Prop where
  envs : g.envs.Extends g'.envs
  asks : g'.asks = g.asks

section Mono

variable {g g' : Ground}

mutual

lemma Ty.Sound.mono (hg : g.Le g') (t : Ty) (h : t.Sound g) : t.Sound g' := by
  match t with
  | .prim _ | .lit _ => trivial
  | .list items | .union items => exact Ty.AllSound.mono hg items h
  | .map fields _ => exact Ty.FieldsSound.mono hg fields h
  | .layout _ env _ => exact ⟨Env.Sound.mono hg true env h.1, hg.asks ▸ h.2⟩
  | .closure dom range => exact ⟨Ty.Sound.mono hg dom h.1, Ty.Sound.mono hg range h.2⟩
  | .recur key => exact (congrFun (congrArg Demands.known hg.asks) key).mpr h
  | .array _ elem => exact Ty.Sound.mono hg elem h
  | .foreign _ parts => exact ForeignPart.AllSound.mono hg parts h
termination_by structural t

lemma Ty.AllSound.mono (hg : g.Le g') (ts : List Ty) (h : Ty.AllSound g ts) :
    Ty.AllSound g' ts := by
  match ts with
  | [] => trivial
  | t :: rest => exact ⟨Ty.Sound.mono hg t h.1, Ty.AllSound.mono hg rest h.2⟩
termination_by structural ts

lemma Ty.FieldsSound.mono (hg : g.Le g') (m : List (Name × Ty)) (h : Ty.FieldsSound g m) :
    Ty.FieldsSound g' m := by
  match m with
  | [] => trivial
  | (x, t) :: rest => exact ⟨Ty.Sound.mono hg t h.1, Ty.FieldsSound.mono hg rest h.2⟩
termination_by structural m

lemma ForeignPart.Sound.mono (hg : g.Le g') (p : ForeignPart) (h : p.Sound g) : p.Sound g' := by
  match p with
  | .text _ => trivial
  | .type t => exact Ty.Sound.mono hg t h
termination_by structural p

lemma ForeignPart.AllSound.mono (hg : g.Le g') (ps : List ForeignPart)
    (h : ForeignPart.AllSound g ps) : ForeignPart.AllSound g' ps := by
  match ps with
  | [] => trivial
  | p :: rest => exact ⟨ForeignPart.Sound.mono hg p h.1, ForeignPart.AllSound.mono hg rest h.2⟩
termination_by structural ps

lemma Var.Sound.mono (hg : g.Le g') (v : Var) (h : v.Sound g) : v.Sound g' := by
  match v with
  | ⟨_, t⟩ => exact Ty.Sound.mono hg t h
termination_by structural v

lemma Term.Sound.mono (hg : g.Le g') (held : Bool) (t : Term) (h : t.Sound g held) :
    t.Sound g' held := by
  match t with
  | .type t => exact Ty.Sound.mono hg t h
  | .var v => exact Var.Sound.mono hg v h
  | .tuple items => exact Term.AllSound.mono hg held items h
  | .map env _ => exact Env.Sound.mono hg held env h
  | .box inner ty =>
    exact ⟨Term.Sound.mono hg held inner h.1, Ty.Sound.mono hg ty h.2.1, hg.asks ▸ h.2.2⟩
  | .lit _ => trivial
  | .op _ args _ => exact ⟨Term.AllSound.mono hg held args h.1, h.2⟩
termination_by structural t

lemma Term.AllSound.mono (hg : g.Le g') (held : Bool) (ts : List Term)
    (h : Term.AllSound g held ts) : Term.AllSound g' held ts := by
  match ts with
  | [] => trivial
  | t :: rest => exact ⟨Term.Sound.mono hg held t h.1, Term.AllSound.mono hg held rest h.2⟩
termination_by structural ts

lemma Env.Sound.mono (hg : g.Le g') (held : Bool) (env : Env) (h : env.Sound g held) :
    env.Sound g' held := by
  match env with
  | .plain m => exact Env.FieldsSound.mono hg held _ m h
  | .restricted m used => exact Env.FieldsSound.mono hg held _ m h
  | .consed s m =>
    exact ⟨fun hheld => hg.envs.getElem? (h.1 hheld), Env.FieldsSound.mono hg held _ m h.2⟩
termination_by structural env

lemma Env.FieldsSound.mono (hg : g.Le g') (held : Bool) (keep : Name → Bool)
    (m : List (Name × Term)) (h : Env.FieldsSound g held keep m) :
    Env.FieldsSound g' held keep m := by
  match m with
  | [] => trivial
  | (x, t) :: rest =>
    exact ⟨fun hx => Term.Sound.mono hg held t (h.1 hx), Env.FieldsSound.mono hg held keep rest h.2⟩
termination_by structural m

end

end Mono

/-! ### Values that are held in a type, as any values -/

section Release

variable {g : Ground}

mutual

lemma Term.Sound.release (t : Term) (h : t.Sound g true) : t.Sound g false := by
  match t with
  | .type _ | .var _ | .lit _ => exact h
  | .tuple items => exact Term.AllSound.release items h
  | .map env _ => exact Env.Sound.release env h
  | .box inner ty => exact ⟨Term.Sound.release inner h.1, h.2⟩
  | .op _ args _ => exact ⟨Term.AllSound.release args h.1, h.2⟩
termination_by structural t

lemma Term.AllSound.release (ts : List Term) (h : Term.AllSound g true ts) :
    Term.AllSound g false ts := by
  match ts with
  | [] => trivial
  | t :: rest => exact ⟨Term.Sound.release t h.1, Term.AllSound.release rest h.2⟩
termination_by structural ts

lemma Env.Sound.release (env : Env) (h : env.Sound g true) : env.Sound g false := by
  match env with
  | .plain m => exact Env.FieldsSound.release _ m h
  | .restricted m used => exact Env.FieldsSound.release _ m h
  | .consed s m => exact ⟨fun hheld => absurd hheld (by decide), Env.FieldsSound.release _ m h.2⟩
termination_by structural env

lemma Env.FieldsSound.release (keep : Name → Bool) (m : List (Name × Term))
    (h : Env.FieldsSound g true keep m) : Env.FieldsSound g false keep m := by
  match m with
  | [] => trivial
  | (x, t) :: rest =>
    exact ⟨fun hx => Term.Sound.release t (h.1 hx), Env.FieldsSound.release keep rest h.2⟩
termination_by structural m

end

end Release

/-! ### Types and variables of sound values, and values of sound types -/

section Types

variable {g : Ground} {held : Bool}

mutual

lemma Term.Sound.ty (t : Term) (h : t.Sound g held) : t.ty.Sound g := by
  match t with
  | .type t => exact h
  | .var ⟨_, t⟩ => exact h
  | .tuple items => exact Term.AllSound.tys items h
  | .map env _ => exact Env.Sound.tys env h
  | .box _ ty => exact h.2.1
  | .lit _ => trivial
  | .op _ _ ty =>
    rw [Term.ty, h.2]
    trivial
termination_by structural t

lemma Term.AllSound.tys (ts : List Term) (h : Term.AllSound g held ts) :
    Ty.AllSound g (Term.tys ts) := by
  match ts with
  | [] => trivial
  | t :: rest => exact ⟨Term.Sound.ty t h.1, Term.AllSound.tys rest h.2⟩
termination_by structural ts

lemma Env.Sound.tys (env : Env) (h : env.Sound g held) :
    Ty.FieldsSound g (Term.envTys env) := by
  match env with
  | .plain m => exact Env.FieldsSound.tys _ m h
  | .restricted m used => exact Env.FieldsSound.tys _ m h
  | .consed _ m => exact Env.FieldsSound.tys _ m h.2
termination_by structural env

lemma Env.FieldsSound.tys (keep : Name → Bool) (m : List (Name × Term))
    (h : Env.FieldsSound g held keep m) : Ty.FieldsSound g (Term.fieldTys keep m) := by
  match m with
  | [] => trivial
  | (x, t) :: rest =>
    rw [Term.fieldTys]
    split
    · rename_i hx
      exact ⟨Term.Sound.ty t (h.1 hx), Env.FieldsSound.tys keep rest h.2⟩
    · exact Env.FieldsSound.tys keep rest h.2
termination_by structural m

end

mutual

lemma Term.sound_ofUnit (t : Ty) (h : t.Sound g) : (Term.ofUnit t).Sound g held := by
  match t with
  | .list items => exact Term.sound_ofUnits items h
  | .map fields kind => exact Term.sound_ofUnitFields fields h
  | .prim _ | .lit _ | .layout _ _ _ | .closure _ _ | .union _ | .recur _ | .array _ _
  | .foreign _ _ => exact h
termination_by structural t

lemma Term.sound_ofUnits (ts : List Ty) (h : Ty.AllSound g ts) :
    Term.AllSound g held (Term.ofUnits ts) := by
  match ts with
  | [] => trivial
  | t :: rest => exact ⟨Term.sound_ofUnit t h.1, Term.sound_ofUnits rest h.2⟩
termination_by structural ts

lemma Term.sound_ofUnitFields (m : List (Name × Ty)) (h : Ty.FieldsSound g m) :
    Env.FieldsSound g held (fun _ => true) (Term.ofUnitFields m) := by
  match m with
  | [] => trivial
  | (x, t) :: rest => exact ⟨fun _ => Term.sound_ofUnit t h.1, Term.sound_ofUnitFields rest h.2⟩
termination_by structural m

end

mutual

lemma Term.Sound.vars (t : Term) (h : t.Sound g held) : ∀ v ∈ t.vars, v.ty.Sound g := by
  match t with
  | .type _ | .lit _ => exact fun v hv => absurd hv List.not_mem_nil
  | .var v => exact List.forall_mem_singleton.2 (Var.sound_iff.1 h)
  | .tuple items => exact Term.AllSound.vars items h
  | .map env _ => exact Env.Sound.vars env h
  | .box inner _ => exact Term.Sound.vars inner h.1
  | .op _ args _ => exact Term.AllSound.vars args h.1
termination_by structural t

lemma Term.AllSound.vars (ts : List Term) (h : Term.AllSound g held ts) :
    ∀ v ∈ Term.varsOfAll ts, v.ty.Sound g := by
  match ts with
  | [] => exact fun v hv => absurd hv List.not_mem_nil
  | t :: rest =>
    exact List.forall_mem_append.2 ⟨Term.Sound.vars t h.1, Term.AllSound.vars rest h.2⟩
termination_by structural ts

lemma Env.Sound.vars (env : Env) (h : env.Sound g held) : ∀ v ∈ env.vars, v.ty.Sound g := by
  match env with
  | .plain m => exact Env.FieldsSound.vars _ m h
  | .restricted m used => exact Env.FieldsSound.vars _ m h
  | .consed _ m => exact Env.FieldsSound.vars _ m h.2
termination_by structural env

lemma Env.FieldsSound.vars (keep : Name → Bool) (m : List (Name × Term))
    (h : Env.FieldsSound g held keep m) : ∀ v ∈ Env.varsOfFields keep m, v.ty.Sound g := by
  match m with
  | [] => exact fun v hv => absurd hv List.not_mem_nil
  | (x, t) :: rest =>
    rw [Env.varsOfFields]
    split
    · rename_i hx
      exact List.forall_mem_append.2
        ⟨Term.Sound.vars t (h.1 hx), Env.FieldsSound.vars keep rest h.2⟩
    · exact Env.FieldsSound.vars keep rest h.2
termination_by structural m

end

mutual

/-- The nodes of a sound value obey their rules. -/
theorem Term.Sound.fits (t : Term) (ht : t.Formed) (h : t.Sound g held) :
    ∀ n ∈ t.nodes, n.Fits g.asks.typed (Ty.Sound g) := by
  match t with
  | .type t =>
    exact List.forall_mem_singleton.2 ⟨fun _ => trivial, List.forall_mem_singleton.2 h⟩
  | .var v =>
    exact List.forall_mem_singleton.2
      ⟨fun _ => trivial, List.forall_mem_singleton.2 (Var.sound_iff.1 h)⟩
  | .lit l =>
    exact List.forall_mem_singleton.2 ⟨fun _ => trivial, fun _ hty => absurd hty List.not_mem_nil⟩
  | .tuple items =>
    exact List.forall_mem_cons.2 ⟨⟨fun _ => trivial, fun _ hty => absurd hty List.not_mem_nil⟩,
      Term.AllSound.fits items ht h⟩
  | .map env _ =>
    exact List.forall_mem_cons.2 ⟨⟨fun _ => trivial, fun _ hty => absurd hty List.not_mem_nil⟩,
      Env.Sound.fits env ht.1 h⟩
  | .box inner ty =>
    exact List.forall_mem_cons.2 ⟨⟨h.2.2, List.forall_mem_singleton.2 h.2.1⟩,
      Term.Sound.fits inner ht.1 h.1⟩
  | .op o args ty =>
    obtain ⟨rfl, hargs, -⟩ := ht
    refine List.forall_mem_cons.2 ⟨⟨fun _ => trivial, List.forall_mem_singleton.2 ?_⟩,
      Term.AllSound.fits args hargs h.1⟩
    rw [h.2]
    trivial
termination_by structural t

lemma Term.AllSound.fits (ts : List Term) (ht : Term.AllFormed ts)
    (h : Term.AllSound g held ts) : ∀ n ∈ Term.nodesOfAll ts, n.Fits g.asks.typed (Ty.Sound g) := by
  match ts with
  | [] => exact fun n hn => absurd hn List.not_mem_nil
  | t :: rest =>
    exact List.forall_mem_append.2
      ⟨Term.Sound.fits t ht.1 h.1, Term.AllSound.fits rest ht.2 h.2⟩
termination_by structural ts

lemma Env.Sound.fits (env : Env) (ht : env.Formed) (h : env.Sound g held) :
    ∀ n ∈ env.nodes, n.Fits g.asks.typed (Ty.Sound g) := by
  match env with
  | .plain m => exact Env.FieldsSound.fits _ m ht.2 h
  | .restricted m used => exact Env.FieldsSound.fits _ m ht.2.1 h
  | .consed _ m => exact Env.FieldsSound.fits _ m ht.2 h.2
termination_by structural env

lemma Env.FieldsSound.fits (keep : Name → Bool) (m : List (Name × Term))
    (ht : Env.FieldsFormed m) (h : Env.FieldsSound g held keep m) :
    ∀ n ∈ Env.nodesOfFields keep m, n.Fits g.asks.typed (Ty.Sound g) := by
  match m with
  | [] => exact fun n hn => absurd hn List.not_mem_nil
  | (x, t) :: rest =>
    rw [Env.nodesOfFields]
    split
    · rename_i hx
      exact List.forall_mem_append.2
        ⟨Term.Sound.fits t ht.1 (h.1 hx), Env.FieldsSound.fits keep rest ht.2 h.2⟩
    · exact Env.FieldsSound.fits keep rest ht.2 h.2
termination_by structural m

end

lemma Ty.sound_unionOf {ts : List Ty} (h : ∀ t ∈ ts, t.Sound g) : (Ty.unionOf ts).Sound g := by
  have hflat : ∀ t : Ty, t.Sound g → ∀ u ∈ t.flatMembers, u.Sound g := by
    intro t ht
    cases t with
    | union members => exact Ty.allSound_iff.1 ht
    | _ => exact List.forall_mem_singleton.2 ht
  have hall : ∀ u ∈ (Ty.sort (ts.flatMap Ty.flatMembers)).eraseReps, u.Sound g := by
    intro u hu
    obtain ⟨t, ht, hut⟩ := List.mem_flatMap.1 (Ty.mem_sort (Ty.mem_eraseReps hu))
    exact hflat t (h t ht) u hut
  unfold Ty.unionOf
  split
  · rename_i t heq
    exact hall t (by rw [heq]; exact List.mem_singleton.2 rfl)
  · exact Ty.allSound_iff.2 hall

end Types

/-! ### Equality -/

section Equality

variable {g : Ground}

mutual

/-- Sound types have their environments in the table. -/
theorem Ty.Sound.entered (t : Ty) (h : t.Sound g) : t.Entered g.envs := by
  match t with
  | .prim _ | .lit _ | .recur _ => trivial
  | .list items | .union items => exact Ty.AllSound.entered items h
  | .map fields _ => exact Ty.FieldsSound.entered fields h
  | .layout _ env _ => exact Env.Sound.entered env h.1
  | .closure dom range => exact ⟨Ty.Sound.entered dom h.1, Ty.Sound.entered range h.2⟩
  | .array _ elem => exact Ty.Sound.entered elem h
  | .foreign _ parts => exact ForeignPart.AllSound.entered parts h
termination_by structural t

lemma Ty.AllSound.entered (ts : List Ty) (h : Ty.AllSound g ts) : Ty.AllEntered g.envs ts := by
  match ts with
  | [] => trivial
  | t :: rest => exact ⟨Ty.Sound.entered t h.1, Ty.AllSound.entered rest h.2⟩
termination_by structural ts

lemma Ty.FieldsSound.entered (m : List (Name × Ty)) (h : Ty.FieldsSound g m) :
    Ty.FieldsEntered g.envs m := by
  match m with
  | [] => trivial
  | (_, t) :: rest => exact ⟨Ty.Sound.entered t h.1, Ty.FieldsSound.entered rest h.2⟩
termination_by structural m

lemma ForeignPart.Sound.entered (p : ForeignPart) (h : p.Sound g) : p.Entered g.envs := by
  match p with
  | .text _ => trivial
  | .type t => exact Ty.Sound.entered t h
termination_by structural p

lemma ForeignPart.AllSound.entered (ps : List ForeignPart) (h : ForeignPart.AllSound g ps) :
    ForeignPart.AllEntered g.envs ps := by
  match ps with
  | [] => trivial
  | p :: rest => exact ⟨ForeignPart.Sound.entered p h.1, ForeignPart.AllSound.entered rest h.2⟩
termination_by structural ps

lemma Var.Sound.entered (v : Var) (h : v.Sound g) : v.Entered g.envs := by
  match v with
  | ⟨_, t⟩ => exact Ty.Sound.entered t h
termination_by structural v

lemma Term.Sound.entered (t : Term) (h : t.Sound g true) : t.Entered g.envs := by
  match t with
  | .lit _ => trivial
  | .type t => exact Ty.Sound.entered t h
  | .var v => exact Var.Sound.entered v h
  | .tuple items => exact Term.AllSound.entered items h
  | .map env _ => exact Env.Sound.entered env h
  | .box inner ty => exact ⟨Term.Sound.entered inner h.1, Ty.Sound.entered ty h.2.1⟩
  | .op _ args ty =>
    obtain ⟨hargs, rfl⟩ := h
    exact ⟨Term.AllSound.entered args hargs, trivial⟩
termination_by structural t

lemma Term.AllSound.entered (ts : List Term) (h : Term.AllSound g true ts) :
    Term.AllEntered g.envs ts := by
  match ts with
  | [] => trivial
  | t :: rest => exact ⟨Term.Sound.entered t h.1, Term.AllSound.entered rest h.2⟩
termination_by structural ts

lemma Env.Sound.entered (env : Env) (h : env.Sound g true) : env.Entered g.envs := by
  match env with
  | .plain m => exact Env.FieldsSound.entered _ m h
  | .restricted m used => exact Env.FieldsSound.entered _ m h
  | .consed s m => exact ⟨h.1 rfl, Env.FieldsSound.entered _ m h.2⟩
termination_by structural env

lemma Env.FieldsSound.entered (keep : Name → Bool) (m : List (Name × Term))
    (h : Env.FieldsSound g true keep m) : Env.FieldsEntered g.envs keep m := by
  match m with
  | [] => trivial
  | (x, t) :: rest =>
    exact ⟨fun hx => Term.Sound.entered t (h.1 hx), Env.FieldsSound.entered keep rest h.2⟩
termination_by structural m

end

/-- Sound types are equal exactly if their codes are. -/
theorem Ty.Sound.beq_iff {a b : Ty} (ha : a.Sound g) (hb : b.Sound g) :
    (a == b) = true ↔ a.code = b.code :=
  (Ty.Sound.entered a ha).beq_iff (Ty.Sound.entered b hb)

lemma Ty.Sound.cmp_eq {a b : Ty} (ha : a.Sound g) (hb : b.Sound g) :
    a.cmp .symbol b = Code.cmp a.code b.code :=
  (Ty.Sound.entered a ha).cmp_eq (Ty.Sound.entered b hb)

/-- Sound types that are equal have the same content. -/
theorem Ty.Sound.code_of_beq {a b : Ty} (ha : a.Sound g) (hb : b.Sound g) (h : (a == b) = true) :
    a.code = b.code :=
  (ha.beq_iff hb).1 h

end Equality

end Residual
