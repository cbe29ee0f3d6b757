import Residual.Proofs.Typed.Canonical
import Residual.Proofs.Typed.Entered

/-!
The order of types and values is lawful.

Where all environments in sight were entered in one table, comparing two values is comparing their
codes. So the order is total, its equality is the one that types and values are tested with, and it
sees an environment only through what is visible in it, in whatever form that is held.
-/

namespace Residual

/-- On the values in `p`, `cmp` is a total order, `eq` is its equality, and it does not tell values
of one canonical form apart. -/
structure LawfulOrder {α : Type} (p : α → Prop) (canon : α → α) (eq : α → α → Bool)
    (cmp : α → α → Ordering) : Prop where
  eq_iff : ∀ {a b}, p a → p b → (cmp a b = .eq ↔ eq a b = true)
  swap : ∀ {a b}, p a → p b → cmp b a = (cmp a b).swap
  isLE_trans : ∀ {a b c}, p a → p b → p c → (cmp a b).isLE → (cmp b c).isLE → (cmp a c).isLE
  of_canon : ∀ {a a' b b'}, p a → p a' → p b → p b' → canon a = canon a' → canon b = canon b' →
    cmp a b = cmp a' b'

/-- An order that goes by a code is lawful, as codes are ordered and say no more than the canonical
form. -/
theorem LawfulOrder.of_code {α : Type} {p : α → Prop} {canon : α → α} {eq : α → α → Bool}
    {cmp : α → α → Ordering} {code : α → Code}
    (heq : ∀ {a b}, p a → p b → (eq a b = true ↔ code a = code b))
    (hcmp : ∀ {a b}, p a → p b → cmp a b = Code.cmp (code a) (code b))
    (hcanon : ∀ a, code (canon a) = code a) : LawfulOrder p canon eq cmp where
  eq_iff ha hb := by rw [hcmp ha hb, Code.cmp_eq_eq, heq ha hb]
  swap ha hb := by rw [hcmp hb ha, hcmp ha hb, Code.cmp_swap]
  isLE_trans ha hb hc hab hbc := by
    rw [hcmp ha hb] at hab
    rw [hcmp hb hc] at hbc
    rw [hcmp ha hc]
    exact Code.cmp_isLE_trans hab hbc
  of_canon {a a' b b'} ha ha' hb hb' hcan hcan' := by
    have hcode : code a = code a' := by rw [← hcanon a, hcan, hcanon]
    have hcode' : code b = code b' := by rw [← hcanon b, hcan', hcanon]
    rw [hcmp ha hb, hcmp ha' hb', hcode, hcode']

lemma Ty.lawful (table : EnvTable) :
    LawfulOrder (Ty.Entered table) Ty.canon (fun a b => a == b) (Ty.cmp .symbol) :=
  .of_code Ty.Entered.beq_iff Ty.Entered.cmp_eq Ty.code_canon

lemma Term.lawful (table : EnvTable) :
    LawfulOrder (Term.Entered table) Term.canon (fun a b => a == b) (Term.cmp .symbol) :=
  .of_code Term.Entered.beq_iff Term.Entered.cmp_eq Term.code_canon

lemma Env.lawful (table : EnvTable) :
    LawfulOrder (Env.Entered table) Env.canon (fun a b => a == b) (Env.cmp .symbol) :=
  .of_code Env.Entered.beq_iff Env.Entered.cmp_eq Env.code_canon

lemma ForeignPart.lawful (table : EnvTable) :
    LawfulOrder (ForeignPart.Entered table) ForeignPart.canon (ForeignPart.beq .symbol)
      (ForeignPart.cmp .symbol) :=
  .of_code ForeignPart.Entered.beq_iff ForeignPart.Entered.cmp_eq ForeignPart.code_canon

/-- Kinds have no environment in them: what they say of a function is its names and its body. -/
lemma MapKind.lawful :
    LawfulOrder (fun _ => True) id (fun k l : MapKind => k == l)
      (fun k l => Code.cmp k.code l.code) :=
  .of_code (fun _ _ => MapKind.code_eq_iff.symm) (fun _ _ => rfl) fun _ => rfl

/-- Types, terms, environments, kinds of maps and parts of foreign types whose environments were
entered in one table are totally ordered up to equality, by what is visible in environments. -/
theorem lawful_of_entered (table : EnvTable) :
    LawfulOrder (Ty.Entered table) Ty.canon (fun a b => a == b) (Ty.cmp .symbol) ∧
    LawfulOrder (Term.Entered table) Term.canon (fun a b => a == b) (Term.cmp .symbol) ∧
    LawfulOrder (Env.Entered table) Env.canon (fun a b => a == b) (Env.cmp .symbol) ∧
    LawfulOrder (fun _ => True) id (fun k l : MapKind => k == l)
      (fun k l => Code.cmp k.code l.code) ∧
    LawfulOrder (ForeignPart.Entered table) ForeignPart.canon (ForeignPart.beq .symbol)
      (ForeignPart.cmp .symbol) :=
  ⟨Ty.lawful table, Term.lawful table, Env.lawful table, MapKind.lawful, ForeignPart.lawful table⟩

/-- A packed map is not told from the one that holds its environment in another form: entered, or
as a larger environment of which one name was captured. -/
theorem lawful_of_entered_packed :
    let seen : Name × Term := (⟨0⟩, .lit (.bool true))
    let table : EnvTable := ⟨[[seen]]⟩
    let entered : Ty := .layout .heap (.consed 0 [seen]) .module
    let captured : Ty := .layout .heap (.restricted [seen, (⟨1⟩, .tuple [])] [⟨0⟩]) .module
    entered.Entered table ∧ captured.Entered table ∧ entered.cmp .symbol captured = .eq ∧
      (entered == captured) = true := by
  intro seen table entered captured
  have hentered : entered.Entered table := ⟨rfl, fun _ => trivial, trivial⟩
  have hcaptured : captured.Entered table :=
    ⟨fun _ => trivial, fun h => absurd h (by decide), trivial⟩
  have hlawful := (lawful_of_entered table).1
  have hcmp : entered.cmp .symbol captured = captured.cmp .symbol captured :=
    hlawful.of_canon hentered hcaptured hcaptured hcaptured rfl rfl
  rw [(hlawful.eq_iff hcaptured hcaptured).2 (Ty.beq_eq .. ▸ Ty.beq_refl ..)] at hcmp
  exact ⟨hentered, hcaptured, hcmp, (hlawful.eq_iff hentered hcaptured).1 hcmp⟩

end Residual
