import Residual.Proofs.Session.LoweredForms
import Residual.Proofs.Session.Matcher
import Residual.Proofs.Typed.Content

/-!
Lowered code matches as the pattern says.
-/

namespace Residual

open Eval

variable {u : Store} {w : World} {D D' : Meaning} {e f g later succ fail : Expr} {s t : Term}
  {v x z : Name} {n i : Nat} {r r' : Option Found}

/-! ### Looking at a known value -/

lemma World.Carries.member (h : w.Carries s) (ht : s.member? x = some t) : w.Carries t := by
  cases s with
  | map env kind => exact h.get? ht
  | _ => cases ht

lemma Term.Static.tupleLength?_eq (h : s.Static) :
    s.tupleLength? = s.elements?.map List.length := by
  cases h <;> rfl

lemma Term.Static.hasMember_eq (h : s.Static) (x : Name) :
    s.hasMember x = (s.member? x).isSome := by
  cases h <;> rfl

namespace Gives

lemma lengthEq (hf : Gives u w f D s) (hs : s.Static) {m : Nat}
    (he : e.kind = .op (.tuple (.lengthEq m)) [f]) :
    Gives u w e D (.lit (.bool (s.elements?.any fun items => items.length == m))) := by
  refine hf.op₁ he (fun _ => tupleOp (.lengthEq m)) (fun _ _ => rfl) (fun _ a => ?_)
    fun _ => World.carries_lit _
  change (Except.ok (Term.lit (.bool (s.tupleLength?.any (· == m)))), _) = _
  rw [hs.tupleLength?_eq]
  cases s.elements? <;> rfl

lemma lengthGe (hf : Gives u w f D s) (hs : s.Static) {m : Nat}
    (he : e.kind = .op (.tuple (.lengthGe m)) [f]) :
    Gives u w e D (.lit (.bool (s.elements?.any fun items => m ≤ items.length))) := by
  refine hf.op₁ he (fun _ => tupleOp (.lengthGe m)) (fun _ _ => rfl) (fun _ a => ?_)
    fun _ => World.carries_lit _
  change (Except.ok (Term.lit (.bool (s.tupleLength?.any (m ≤ ·)))), _) = _
  rw [hs.tupleLength?_eq]
  cases s.elements? <;> rfl

lemma index {items : List Term} (hf : Gives u w f D (.tuple items)) {m : Nat}
    (he : e.kind = .op (.tuple (.index m)) [f]) (ht : items[m]? = some t) : Gives u w e D t := by
  refine hf.op₁ he (fun _ => tupleOp (.index m)) (fun _ _ => rfl) (fun _ a => ?_)
    fun h => h.item (List.mem_of_getElem? ht)
  change exec (tupleIndex (.tuple items) m) _ = _
  rw [tupleIndex, ht]
  rfl

lemma exec_slice (items : List Term) (m : Nat) (ks : List Nat)
    (h : ∀ k ∈ ks, m + k < items.length) (v : World) :
    exec (ks.mapM fun k => tupleIndex (.tuple items) (m + k)) v =
      (.ok (ks.filterMap fun k => items[m + k]?), v) := by
  induction ks with
  | nil => rfl
  | cons k rest ih =>
    obtain ⟨hk, hrest⟩ := List.forall_mem_cons.1 h
    have hget : items[m + k]? = some items[m + k] := List.getElem?_eq_getElem hk
    have hfirst : exec (tupleIndex (.tuple items) (m + k)) v = (.ok items[m + k], v) := by
      rw [tupleIndex, hget]
      rfl
    rw [List.mapM_cons, exec_bind_of_ok hfirst, exec_bind_of_ok (ih hrest),
      List.filterMap_cons, hget]
    rfl

lemma filterMap_range (items : List Term) (m : Nat) :
    ((List.range (items.length - m)).filterMap fun k => items[m + k]?) = items.drop m := by
  rw [← List.length_drop]
  simp only [← List.getElem?_drop]
  generalize items.drop m = l
  induction l with
  | nil => rfl
  | cons t rest ih =>
    rw [List.length_cons, List.range_succ_eq_map, List.filterMap_cons, List.filterMap_map]
    exact congrArg (t :: ·) ih

lemma slice {items : List Term} (hf : Gives u w f D (.tuple items)) {m : Nat}
    (hm : m ≤ items.length) (he : e.kind = .op (.tuple (.slice m)) [f]) :
    Gives u w e D (.tuple (items.drop m)) := by
  refine hf.op₁ he (fun _ => tupleOp (.slice m)) (fun _ _ => rfl) (fun _ a => ?_)
    fun h => World.carries_tuple fun t ht => h.item (List.mem_of_mem_drop ht)
  have hitems := exec_slice items m (List.range (items.length - m))
    (fun k hk => by have := List.mem_range.1 hk; omega) (w.setEnv a)
  rw [filterMap_range] at hitems
  have hop : tupleOp (.slice m) [.tuple items] = (do
      let ts ← (List.range (items.length - m)).mapM fun k => tupleIndex (.tuple items) (m + k)
      return .tuple ts) := by
    change (if m ≤ items.length then (do
      let ts ← (List.range (items.length - m)).mapM fun k => tupleIndex (.tuple items) (m + k)
      return .tuple ts) else notTuple _ _) = _
    rw [if_pos hm]
  rw [hop, exec_bind_of_ok hitems]
  rfl

lemma hasMember (hf : Gives u w f D s) (hs : s.Static)
    (he : e.kind = .op (.module (.hasMember x)) [f]) :
    Gives u w e D (.lit (.bool (s.member? x).isSome)) := by
  refine hf.op₁ he (fun ev => moduleOp ev (.hasMember x)) (fun _ _ => rfl) (fun _ a => ?_)
    fun _ => World.carries_lit _
  rw [← hs.hasMember_eq]
  rfl

lemma «open» (hf : Gives u w f D s) (he : e.kind = .op (.module (.open x)) [f])
    (ht : s.member? x = some t) (hcarries : w.Carries s → w.Carries t) : Gives u w e D t := by
  refine hf.op₁ he (fun ev => moduleOp ev (.open x)) (fun _ _ => rfl) (fun ev a => ?_)
    hcarries
  cases s with
  | map env kind =>
    have hmap : exec (mapValue (.module (.open x)) (.map env kind)) (w.setEnv a) =
        (.ok (env, kind), w.setEnv a) := rfl
    change exec (openField (.open x) (.map env kind) x) _ = _
    simp only [openField]
    rw [exec_bind_of_ok hmap]
    simp only [show env.get? x = some t from ht]
    rfl
  | _ => cases ht

lemma sameType (hf : Gives u w f D s) (hg : Gives u w g D t)
    (he : e.kind = .op (.type .equal) [f, g]) : Gives u w e D (.lit (.bool (s.ty == t.ty))) :=
  hf.op₂ he hg (fun _ => typeOp .equal) (fun _ _ _ => rfl) (fun _ _ => rfl)
    (World.carries_lit _)

/-- Of known values only literals have the type of a literal. -/
lemma lit_of_sameType {l : Literal} (hs : s.Static) (h : (s.ty == (Term.lit l).ty) = true) :
    ∃ m : Literal, s = .lit m ∧ m.type = l.type := by
  rw [Ty.beq_eq] at h
  cases hs with
  | lit m => exact ⟨m, rfl, eq_of_beq h⟩
  | _ => cases h

/-- Literals without a fraction are compared by what they are. -/
lemma compare_eq {l m : Literal} (hl : l.type.isFloat = false) :
    Fold.compare .eq m l = some (.bool (decide (m = l))) := by
  have hreal : l.real? = none := by cases l <;> first | rfl | cases hl
  have hordering : Fold.ordering m l = some (m.cmp l) := by
    rw [Fold.ordering, hreal]
    cases m.real? <;> rfl
  have hcmp : (m.cmp l).isEq = decide (m = l) := by
    rw [Bool.eq_iff_iff, Ordering.isEq_iff_eq_eq, Literal.cmp, Code.cmp_eq_eq, Literal.code_eq_iff,
      decide_eq_true_iff]
  rw [Fold.compare, hordering, Option.map_some, CompareOp.holds, hcmp]

lemma sameValue (hfold : w.session.settings.folding = true) {l m : Literal}
    (hl : l.type.isFloat = false) (htype : m.type = l.type) (hf : Gives u w f D (.lit m))
    (hg : Gives u w g D (.lit l)) (he : e.kind = .op (.prim (.compare .eq)) [f, g]) :
    Gives u w e D (.lit (.bool (decide (m = l)))) := by
  refine hf.op₂ he hg (fun _ => primOp (.compare .eq)) (fun _ _ _ => rfl) (fun _ a => ?_)
    (World.carries_lit _)
  have hprim : exec (primType (.compare .eq) [.lit m, .lit l]) (w.setEnv a) =
      (.ok .bool, w.setEnv a) := by
    have hresult : Fold.resultType (.compare .eq)
        ([Term.lit m, .lit l].map fun a => a.ty.prim?) = some .bool := by
      change Fold.resultType (.compare .eq) [some m.type, some l.type] = _
      rw [Fold.resultType, htype, beq_self_eq_true, if_pos rfl]
    have harity : [Term.lit m, .lit l].length = (PrimOp.compare .eq).operandCount := rfl
    rw [primType, if_neg (not_not_intro harity), hresult]
    rfl
  rw [primOp, exec_bind_of_ok hprim, exec_bind_of_ok (exec_getSession _)]
  have hfolded : (if (w.setEnv a).session.settings.folding then
      Fold.fold (.compare .eq) [.lit m, .lit l] .bool else none) = some (.bool (decide (m = l))) :=
    (if_pos hfold).trans (compare_eq hl)
  rw [hfolded]
  rfl

end Gives

/-! ### Decisions -/

/-- Evaluation of `e` goes on with `succ`, where the names that were found are bound, or with
`fail`, if there is no match. -/
structure Decides (u : Store) (w : World) (e : Expr) (D : Meaning) (succ fail : Expr)
    (r : Option Found) : Prop where
  clean : ∀ bs, r = some bs → ∀ b ∈ bs, ¬ u.names.Generated b.1 ∧ w.Carries b.2
  found : ∀ bs, r = some bs → Goes u w e D succ (D.extend bs)
  missed : r = none → Goes u w e D fail D

/-- The name was made with a number less than `n`, and stands for a value that is known now. -/
structure Subject (u : Store) (w : World) (n : Nat) (v : Name) (D : Meaning) (s : Term) : Prop where
  made : ∃ i, i < n ∧ u.names.Made v i
  value : D v = some s
  static : s.Static
  carries : w.Carries s

/-- The names made for lowered code that `succ` and `fail` take have numbers less than `n`, and
`fail` takes no others. -/
structure Exits (u : Store) (n : Nat) (succ fail : Expr) : Prop where
  found : succ.Below u n
  missed : fail.Below u n
  inner : ∀ x, fail.FreeIn u x → u.names.Generated x

lemma Meaning.extend_of_generated {bs : Found}
    (h : ∀ b ∈ bs, ¬ u.names.Generated b.1 ∧ w.Carries b.2) (hx : u.names.Generated x) :
    D.extend bs x = D x :=
  extend_of_not_mem fun b hb heq => (h b hb).1 (heq ▸ hx)

namespace Subject

lemma gives (h : Subject u w n v D s) (he : e.kind = .var v) : Gives u w e D s := .var he h.value

lemma mono (h : Subject u w n v D s) {m : Nat} (hm : n ≤ m) : Subject u w m v D s := by
  obtain ⟨i, hi, hv⟩ := h.made
  exact { h with made := ⟨i, Nat.lt_of_lt_of_le hi hm, hv⟩ }

lemma extend (h : Subject u w n v D s) {bs : Found}
    (hbs : ∀ b ∈ bs, ¬ u.names.Generated b.1 ∧ w.Carries b.2) :
    Subject u w n v (D.extend bs) s := by
  obtain ⟨i, -, hv⟩ := h.made
  exact { h with value := (Meaning.extend_of_generated hbs hv.generated).trans h.value }

lemma bind (h : Subject u w n v D s) (hz : u.names.Made z i) (hi : n ≤ i) :
    Subject u w n v (D.bind z t) s := by
  obtain ⟨j, hj, hv⟩ := h.made
  refine { h with value := (Meaning.bind_of_ne ?_).trans h.value }
  rintro rfl
  have := hv.unique hz
  omega

lemma new (hz : u.names.Made z i) (hs : s.Static) (hc : w.Carries s) :
    Subject u w (i + 1) z (D.bind z s) s :=
  ⟨⟨i, Nat.lt_succ_self i, hz⟩, Meaning.bind_self, hs, hc⟩

end Subject

lemma Expr.IsForce.freeIn (h : e.IsForce z) : e.FreeIn u x ↔ x = z :=
  freeIn_iff.trans h.takes

lemma Expr.IsForce.below (h : e.IsForce z) (hz : u.names.Made z i) (hi : i < n) :
    e.Below u n := by
  intro x j hx hj
  rw [h.freeIn] at hx
  rwa [hj.unique (hx ▸ hz)]

namespace Exits

lemma mono (h : Exits u n succ fail) {m : Nat} (hm : n ≤ m) : Exits u m succ fail :=
  ⟨h.found.mono hm, h.missed.mono hm, h.inner⟩

/-- Failure calls a thunk. -/
theorem force (hsucc : succ.Below u n) (hi : n ≤ i) (hz : u.names.Made z i) (he : e.IsForce z) :
    Exits u (i + 1) succ e :=
  ⟨hsucc.mono (by omega), he.below hz (Nat.lt_succ_self i),
    fun x hx => he.freeIn.1 hx ▸ hz.generated⟩

lemma replace (h : Exits u n succ fail) (hlater : later.Below u n) : Exits u n later fail :=
  { h with found := hlater }

end Exits

namespace Decides

lemma of_some {bs : Found} (hbs : ∀ b ∈ bs, ¬ u.names.Generated b.1 ∧ w.Carries b.2)
    (h : Goes u w e D succ (D.extend bs)) : Decides u w e D succ fail (some bs) where
  clean := fun _ hr => Option.some.inj hr ▸ hbs
  found := fun _ hr => Option.some.inj hr ▸ h
  missed := nofun

lemma of_none (h : Goes u w e D fail D) : Decides u w e D succ fail none :=
  ⟨nofun, nofun, fun _ => h⟩

lemma succeed : Decides u w succ D succ fail (some []) :=
  of_some (fun _ hb => absurd hb List.not_mem_nil) (.refl succ fun _ _ => rfl)

lemma failing : Decides u w fail D succ fail none := of_none (.refl fail fun _ _ => rfl)

lemma after (h : Goes u w e D f D') (hd : Decides u w f D' succ fail r)
    (hsucc : ∀ x, succ.FreeIn u x → D' x = D x) (hfail : ∀ x, fail.FreeIn u x → D' x = D x) :
    Decides u w e D succ fail r :=
  ⟨hd.clean, fun bs hr => (h.trans (hd.found bs hr)).congr
      fun x hx => Meaning.extend_congr (hsucc x hx),
    fun hr => (h.trans (hd.missed hr)).congr hfail⟩

/-- A name of the program is bound. -/
theorem named (h : Goes u w e D succ (D.bind x t)) (hx : ¬ u.names.Generated x)
    (ht : w.Carries t) : Decides u w e D succ fail (some [(x, t)]) :=
  of_some (List.forall_mem_singleton.2 ⟨hx, ht⟩) h

/-- A name is bound first that was made for the match. -/
theorem bound (h : Goes u w e D f (D.bind z t)) (hz : u.names.Made z i) (hi : n ≤ i)
    (hex : Exits u n succ fail) (hd : Decides u w f (D.bind z t) succ fail r) :
    Decides u w e D succ fail r :=
  after h hd (fun _ hx => Meaning.bind_of_ne (hex.found.ne hz hi hx))
    fun _ hx => Meaning.bind_of_ne (hex.missed.ne hz hi hx)

/-- A check decides whether there is a match at all. -/
theorem cond {d : Bool} {k : Expr} (he : e.kind = .op .cond [k, f, fail])
    (hk : Gives u w k D (.lit (.bool d))) (hyes : d = true → Decides u w f D succ fail r)
    (hno : d = false → r = none) : Decides u w e D succ fail r := by
  have hgoes := Goes.cond he hk
  cases d with
  | true => exact after hgoes (hyes rfl) (fun _ _ => rfl) fun _ _ => rfl
  | false => exact hno rfl ▸ after hgoes failing (fun _ _ => rfl) fun _ _ => rfl

/-- One match comes after another, where the names of the first are bound. -/
theorem both (h : Decides u w e D later fail r)
    (hlater : ∀ bs, r = some bs → (∀ b ∈ bs, ¬ u.names.Generated b.1 ∧ w.Carries b.2) →
      Decides u w later (D.extend bs) succ fail r')
    (hfail : ∀ x, fail.FreeIn u x → u.names.Generated x) :
    Decides u w e D succ fail (Found.both r r') := by
  cases r with
  | none => exact of_none (h.missed rfl)
  | some bs =>
    have hclean := h.clean bs rfl
    have hrest := hlater bs rfl hclean
    have hgoes := h.found bs rfl
    cases r' with
    | none =>
      refine of_none ((hgoes.trans (hrest.missed rfl)).congr fun x hx => ?_)
      exact Meaning.extend_of_generated hclean (hfail x hx)
    | some bs' =>
      refine of_some (List.forall_mem_append.2 ⟨hclean, hrest.clean bs' rfl⟩) ?_
      rw [Meaning.extend_append]
      exact hgoes.trans (hrest.found bs' rfl)

/-- If the first match fails, another one counts. -/
theorem or (h : Decides u w e D succ later r) (hlater : Decides u w later D succ fail r') :
    Decides u w e D succ fail (r.or r') := by
  cases r with
  | none =>
    rw [Option.none_or]
    exact after (h.missed rfl) hlater (fun _ _ => rfl) fun _ _ => rfl
  | some bs =>
    rw [Option.some_or]
    exact of_some (h.clean bs rfl) (h.found bs rfl)

end Decides

/-! ### Forms of lowered patterns -/

lemma Pattern.SplitShape.decides {p : Pattern} {L : Nat → Name → Expr → Prop}
    (h : p.SplitShape u.names n v L e) (hv : Subject u w n v D s) (hex : Exits u n succ fail)
    (hL : ∀ m x body D', n ≤ m → Subject u w m x D' s → L m x body →
      Decides u w body D' succ fail r) : Decides u w e D succ fail r := by
  unfold Pattern.SplitShape at h
  split at h
  · obtain ⟨part, i, value, f, body, hi, hpart, hbody, hvalue, hf, he⟩ := h
    exact .bound (.case he hf (.var hvalue hv.value) hv.static.isStatic) hpart hi hex
      (hL (i + 1) part body _ (by omega) (.new hpart hv.static hv.carries) hbody)
  · exact hL n v e D (Nat.le_refl n) hv h

lemma Expr.FailingShape.decides {L : Nat → Expr → Expr → Prop}
    (h : e.FailingShape u.names n later L) (hlater : later.Below u n) (hsucc : succ.Below u n)
    (hL : ∀ k i next c body, n ≤ i → u.names.Made k i → next.IsForce k → L (i + 1) next body →
      Decides u w body (D.bind k c) succ next r) : Decides u w e D succ later r := by
  obtain ⟨k, i, thunk, next, body, hi, hk, hthunk, hnext, hbody, he⟩ := h
  have hd := fun c => hL k i next c body hi hk hnext hbody
  refine ⟨(hd (.tuple [])).clean, fun bs hr => .thunk he hthunk hlater fun c _ => ?_,
    fun hr => .thunk he hthunk hlater fun c hc => ?_⟩
  · exact ((hd c).found bs hr).congr fun x hx =>
      Meaning.extend_congr (Meaning.bind_of_ne (hsucc.ne hk hi hx))
  · exact ((hd c).missed hr).trans (.force hnext Meaning.bind_self hc)

/-! ### Names that lowered simple patterns take -/

lemma Expr.Between.freeIn {T : Prop}
    (h : e.Between u.names (Pattern.FreeIn u x) x (fail.Takes (Pattern.FreeIn u x) x ∨ x = v) T)
    (hT : T → succ.Takes (Pattern.FreeIn u x) x) (hx : e.FreeIn u x) :
    succ.FreeIn u x ∨ fail.FreeIn u x ∨ x = v := by
  rw [freeIn_iff (e := succ), freeIn_iff (e := fail)]
  exact (h.upper (freeIn_iff.1 hx)).imp hT id

lemma Expr.below_of_freeIn (hv : Subject u w n v D s) (hsucc : succ.Below u n)
    (hfail : fail.Below u n)
    (h : ∀ x, e.FreeIn u x → succ.FreeIn u x ∨ fail.FreeIn u x ∨ x = v) : e.Below u n := by
  obtain ⟨j, hj, hv⟩ := hv.made
  intro x i hx hi
  rcases h x hx with hx | hx | rfl
  · exact hsucc x i hx hi
  · exact hfail x i hx hi
  · rwa [hi.unique hv]

lemma ModulePattern.Shape.freeIn {m : ModulePattern} (hm : m.Simple u.names)
    (h : m.Shape u.names Eq n v succ fail e) (hx : e.FreeIn u x) :
    succ.FreeIn u x ∨ fail.FreeIn u x ∨ x = v :=
  (ModulePattern.Shape.between m h).freeIn (ModulePattern.Simple.takes m hm) hx

/-- What follows the first of two matches of which only that one may succeed. -/
theorem Expr.OnlyFirstShape.goes {tryB : Expr} {A B : Nat → Expr → Expr → Expr → Prop}
    (h : e.OnlyFirstShape u.names n z succ tryB A B) (hv : Subject u w n v D s)
    (hz : u.names.Made z i) (hi : i < n) (hex : Exits u n succ tryB)
    (hA : ∀ m f g b D, n ≤ m → Subject u w m v D s → Exits u m f g → A m f g b →
      Decides u w b D f g r)
    (hB : ∀ m f g b D, n ≤ m → Subject u w m v D s → Exits u m f g → B m f g b →
      Decides u w b D f g r')
    (hfree : ∀ m f g b x, B m f g b → b.FreeIn u x → f.FreeIn u x ∨ g.FreeIn u x ∨ x = v) :
    (r = none → Goes u w e D tryB D) ∧
      ∀ bs, r = some bs → (∀ b ∈ bs, ¬ u.names.Generated b.1 ∧ w.Carries b.2) ∧
        (r' = none → Goes u w e D succ (D.extend bs)) ∧
        ∀ bs' c f D', r' = some bs' → D z = some c → Delays u w f D' c → Goes u w e D f D' := by
  obtain ⟨k, j, okThunk, callOk, callFail, bMustFail, afterA, hj, hk, hokThunk, hcallOk, hcallFail,
    hmust, hafter, he⟩ := h
  have hsuccess := hcallOk.below hk (Nat.lt_succ_self j)
  have hfailure := hcallFail.below hz (show i < j + 1 by omega)
  have hv' := hv.mono (show n ≤ j + 1 by omega)
  -- After the first side only its exits are used, and the test that the second side must fail.
  have hafterA : afterA.Below u (j + 1) := by
    have hbelow := Expr.below_of_freeIn hv' hfailure hsuccess fun x => hfree _ _ _ _ x hmust
    intro x l hx hl
    rw [freeIn_iff, hafter.takes] at hx
    rcases hx with ⟨-, hx⟩ | hx
    · exact hbelow x l (freeIn_iff.2 hx) hl
    · exact (hex.found.mono (by omega)) x l (freeIn_iff.2 (hokThunk.takes_body hx)) hl
  have hfirst := hA (j + 1) afterA tryB e D (by omega) hv'
    ((hex.mono (by omega)).replace hafterA) he
  refine ⟨fun hr => hfirst.missed hr, fun bs hr => ?_⟩
  have hclean := hfirst.clean bs hr
  -- The second side runs with the two exits swapped.
  have hsecond : ∀ d, Decides u w bMustFail ((D.extend bs).bind k d) callFail callOk r' := by
    refine fun d => hB (j + 1) callFail callOk bMustFail _ (by omega) ?_
      ⟨hfailure, hsuccess, fun x hx => hcallOk.freeIn.1 hx ▸ hk.generated⟩ hmust
    exact ((hv.extend hclean).bind hk hj).mono (by omega)
  refine ⟨hclean, fun hr' => (hfirst.found bs hr).trans
    (.thunk hafter hokThunk hex.found fun d hd => ?_), fun bs' c f D' hr' hc hcall =>
    (hfirst.found bs hr).trans (.thunk hafter hokThunk hex.found fun d hd => ?_)⟩
  · exact ((hsecond d).missed hr').trans (.force hcallOk Meaning.bind_self hd)
  · refine ((hsecond d).found bs' hr').trans (.force hcallFail ?_ hcall)
    rw [Meaning.extend_of_generated ((hsecond d).clean bs' hr') hz.generated,
      Meaning.bind_of_ne, Meaning.extend_of_generated hclean hz.generated, hc]
    rintro rfl
    have := hz.unique hk
    omega

/-! ### Lowered simple patterns -/

mutual

lemma Pattern.Shape.decides (hfold : w.session.settings.folding = true) (p : Pattern) {n : Nat}
    {v : Name} {succ fail e : Expr} {D : Meaning} {s : Term} (hp : p.Simple u.names)
    (h : p.Shape u.names Eq n v succ fail e) (hv : Subject u w n v D s)
    (hex : Exits u n succ fail) :
    Decides u w e D succ fail (p.match? s) := by
  match p with
  | .node _ kind => exact PatternKind.Shape.decides hfold kind hp h hv hex
termination_by structural p

lemma PatternKind.Shape.decides (hfold : w.session.settings.folding = true) (kind : PatternKind)
    {n : Nat} {v : Name} {succ fail e : Expr} {D : Meaning} {s : Term} (hk : kind.Simple u.names)
    (h : kind.Shape u.names Eq n v succ fail e) (hv : Subject u w n v D s)
    (hex : Exits u n succ fail) : Decides u w e D succ fail (kind.match? s) := by
  match kind with
  | .wildcard =>
    obtain rfl : e = succ := h
    exact .succeed
  | .var x =>
    obtain ⟨value, hvalue, he⟩ := h
    exact .named (.letIn he (hv.gives hvalue)) hk hv.carries
  -- A literal: first its type, then its value. Both tests are decided at once.
  | .lit l =>
    obtain ⟨value, expected, sameType, sameValue, inner, hvalue, hexpected, htype, hequal, hinner,
      he⟩ := h
    have hlook := hv.gives hvalue
    have hlit : Gives u w expected D (.lit l) := .lit hexpected
    refine .cond he (.sameType hlook hlit htype) (fun hsame => ?_) fun hsame => ?_
    · obtain ⟨m, rfl, hm⟩ := Gives.lit_of_sameType hv.static hsame
      rw [PatternKind.match?]
      refine .cond hinner (.sameValue hfold hk hm hlook hlit hequal) (fun heq => ?_) fun heq => ?_
      · rw [if_pos (of_decide_eq_true heq)]
        exact .succeed
      · rw [if_neg (of_decide_eq_false heq)]
    · cases s with
      | lit m =>
        rw [PatternKind.match?, if_neg]
        rintro rfl
        rw [Ty.beq_eq, Ty.beq_refl] at hsame
        cases hsame
      | _ => rfl
  -- A tuple: its length, then its elements.
  | .tuple items =>
    obtain ⟨value, check, matched, hvalue, hm, hcheck, he⟩ := h
    refine .cond he (.lengthEq (hv.gives hvalue) hv.static hcheck) (fun hlen => ?_)
      fun hlen => ?_
    · obtain ⟨all, hall, hlen⟩ := Option.any_eq_true _ _ |>.1 hlen
      obtain rfl := Term.elements?_eq_some hall
      have hlen : all.length = items.length := eq_of_beq hlen
      have hd := Pattern.ElementsShape.decides hfold items hk hm hv hex (by omega)
      rw [PatternKind.match?, hall, Option.bind_some, if_pos hlen]
      exact hd
    · rw [PatternKind.match?]
      cases hall : s.elements? with
      | none => rfl
      | some all =>
        rw [hall, Option.any_some, beq_eq_false_iff_ne] at hlen
        exact if_neg hlen
  -- A prefix: the length, the first elements, and the rest as a slice under a new name.
  | .cons items rest =>
    obtain ⟨others, i, restMatch, value, slice, withRest, matched, check, hi, hothers, hr, hvalue,
      hslice, hwith, hm, hcheck, he⟩ := h
    refine .cond he (.lengthGe (hv.gives hvalue) hv.static hcheck) (fun hlen => ?_) fun hlen => ?_
    · obtain ⟨all, hall, hlen⟩ := Option.any_eq_true _ _ |>.1 hlen
      obtain rfl := Term.elements?_eq_some hall
      have hlen : items.length ≤ all.length := of_decide_eq_true hlen
      have hi' : n ≤ i + 1 := by omega
      have hex' := hex.mono hi'
      have hv' := hv.mono hi'
      have hbelow : withRest.Below u (i + 1) :=
        Expr.below_of_freeIn hv' hex'.found hex'.missed fun x => by
          have hrest := hr.between (P := Pattern.FreeIn u x) (x := x)
            fun m z b => Pattern.Shape.between rest
          exact ((hrest.weaken (Or.imp .inl id)).bind hothers (.look hvalue hslice)
            hwith).drop.freeIn
            (Pattern.Simple.takes rest hk.2)
      have hitems := Pattern.ElementsShape.decides hfold items hk.1 hm hv' (hex'.replace hbelow)
        (by omega)
      rw [PatternKind.match?, hall, Option.bind_some, if_pos hlen]
      refine .both hitems (fun bs _ hbs => ?_) hex.inner
      have hgoes := Goes.letIn hwith (.slice ((hv.extend hbs).gives hvalue) hlen hslice)
      refine .bound hgoes hothers hi hex (hr.decides (.new hothers
        (.tuple fun t ht => hv.static.element rfl t (List.mem_of_mem_drop ht))
        (World.carries_tuple fun t ht => hv.carries.item (List.mem_of_mem_drop ht))) hex'
        fun m x b D' hm hx hb => ?_)
      exact Pattern.Shape.decides hfold rest hk.2 hb hx (hex'.mono hm)
    · rw [PatternKind.match?]
      cases hall : s.elements? with
      | none => rfl
      | some all =>
        rw [hall, Option.any_some, decide_eq_false_iff_not] at hlen
        exact if_neg hlen
  -- Not simple, or made of patterns.
  | .typeEq _ _ | .active _ _ | .partialActive _ _ | .extension _ _ | .guarded _ _ => exact hk.elim
  | .or alternatives => exact Pattern.AlternativesShape.decides hfold alternatives hk h hv hex
  | .and parts => exact Pattern.PartsShape.decides hfold parts hk h hv hex
  | .module m => exact ModulePattern.Shape.decides hfold m hk h hv hex
  | .clauses arms => exact Clause.ArmsShape.decides hfold arms hk h hv hex
termination_by structural kind

lemma Pattern.AlternativesShape.decides (hfold : w.session.settings.folding = true)
    (ps : List Pattern) {n : Nat} {v : Name} {succ fail e : Expr} {D : Meaning} {s : Term}
    (hp : Pattern.AllSimple u.names ps)
    (h : Pattern.AlternativesShape u.names Eq n v succ fail e ps) (hv : Subject u w n v D s)
    (hex : Exits u n succ fail) : Decides u w e D succ fail (Pattern.matchFirst? s ps) := by
  match ps with
  | [] =>
    obtain rfl : e = fail := h
    exact .failing
  | p :: rest =>
    obtain ⟨later, hlater, he⟩ := h
    have hbelow : later.Below u n := Expr.below_of_freeIn hv hex.found hex.missed fun x =>
      (Pattern.AlternativesShape.between rest hlater).freeIn
        (Pattern.AllSimple.takes_any rest hp.2)
    refine .or (he.decides hbelow hex.found fun k i next c body hi hk hnext hbody => ?_)
      (Pattern.AlternativesShape.decides hfold rest hp.2 hlater hv hex)
    have hforce := Exits.force hex.found hi hk hnext
    refine hbody.decides ((hv.bind hk hi).mono (by omega)) hforce fun m x b D' hm hx hb => ?_
    exact Pattern.Shape.decides hfold p hp.1 hb hx (hforce.mono hm)
termination_by structural ps

lemma Clause.ArmsShape.decides (hfold : w.session.settings.folding = true) (arms : List Clause)
    {n : Nat} {v : Name} {succ fail e : Expr} {D : Meaning} {s : Term}
    (ha : Clause.AllSimple u.names arms) (h : Clause.ArmsShape u.names Eq n v succ fail e arms)
    (hv : Subject u w n v D s) (hex : Exits u n succ fail) :
    Decides u w e D succ fail (Clause.matchFirst? s arms) := by
  match arms with
  | [] =>
    obtain rfl : e = fail := h
    exact .failing
  | .mk p _ :: rest =>
    obtain ⟨later, hlater, he⟩ := h
    have hbelow : later.Below u n := Expr.below_of_freeIn hv hex.found hex.missed fun x =>
      (Clause.ArmsShape.between rest hlater).freeIn (Clause.AllSimple.takes_any rest ha.2)
    refine .or (he.decides hbelow hex.found fun k i next c body hi hk hnext hbody => ?_)
      (Clause.ArmsShape.decides hfold rest ha.2 hlater hv hex)
    have hforce := Exits.force hex.found hi hk hnext
    refine hbody.decides ((hv.bind hk hi).mono (by omega)) hforce fun m x b D' hm hx hb => ?_
    exact Pattern.Shape.decides hfold p ha.1 hb hx (hforce.mono hm)
termination_by structural arms

lemma Pattern.PartsShape.decides (hfold : w.session.settings.folding = true) (ps : List Pattern)
    {n : Nat} {v : Name} {succ fail e : Expr} {D : Meaning} {s : Term}
    (hp : Pattern.AllSimple u.names ps) (h : Pattern.PartsShape u.names Eq n v succ fail e ps)
    (hv : Subject u w n v D s) (hex : Exits u n succ fail) :
    Decides u w e D succ fail (Pattern.matchAll? s ps) := by
  match ps with
  | [] =>
    obtain rfl : e = succ := h
    exact .succeed
  | p :: rest =>
    obtain ⟨later, hlater, he⟩ := h
    have hbelow : later.Below u n := Expr.below_of_freeIn hv hex.found hex.missed fun x =>
      (Pattern.PartsShape.between rest hlater).freeIn (Pattern.AllSimple.takes rest hp.2)
    have hafter := hex.replace hbelow
    refine .both (he.decides hv hafter fun m x b D' hm hx hb => ?_) (fun bs _ hbs => ?_) hex.inner
    · exact Pattern.Shape.decides hfold p hp.1 hb hx (hafter.mono hm)
    · exact Pattern.PartsShape.decides hfold rest hp.2 hlater (hv.extend hbs) hex
termination_by structural ps

lemma Pattern.ElementsShape.decides (hfold : w.session.settings.folding = true)
    (ps : List Pattern) {n : Nat} {v : Name} {index : Nat} {succ fail e : Expr} {D : Meaning}
    {items : List Term} (hp : Pattern.AllSimple u.names ps)
    (h : Pattern.ElementsShape u.names Eq n v index succ fail e ps)
    (hv : Subject u w n v D (.tuple items)) (hex : Exits u n succ fail)
    (hlength : index + ps.length ≤ items.length) :
    Decides u w e D succ fail (Pattern.matchEach? (items.drop index) ps) := by
  match ps with
  | [] =>
    obtain rfl : e = succ := h
    exact .succeed
  | p :: rest =>
    obtain ⟨later, element, i, matched, value, item, hlater, hi, helement,
      hm, hvalue, hitem, he⟩ := h
    rw [List.length_cons] at hlength
    have hlt : index < items.length := by omega
    have hget : items[index]? = some items[index] := List.getElem?_eq_getElem hlt
    have hbelow : later.Below u n := Expr.below_of_freeIn hv hex.found hex.missed fun x =>
      (Pattern.ElementsShape.between rest hlater).freeIn (Pattern.AllSimple.takes rest hp.2)
    have hafter := hex.replace hbelow
    have hmem : items[index] ∈ items := List.getElem_mem hlt
    have hnew : Subject u w (i + 1) element (D.bind element items[index]) items[index] :=
      .new helement (hv.static.element rfl _ hmem) (hv.carries.item hmem)
    have hgoes := Goes.letIn he (.index (hv.gives hvalue) hitem hget)
    rw [List.drop_eq_getElem_cons hlt, Pattern.matchEach?, List.head?_cons, List.tail_cons,
      Option.bind_some]
    refine .both (.bound hgoes helement hi hafter ?_) (fun bs _ hbs => ?_) hex.inner
    · refine hm.decides hnew (hafter.mono (by omega)) fun m x b D' hm hx hb => ?_
      exact Pattern.Shape.decides hfold p hp.1 hb hx (hafter.mono (by omega))
    · exact Pattern.ElementsShape.decides hfold rest hp.2 hlater (hv.extend hbs) hex (by omega)
termination_by structural ps

lemma ModulePattern.Shape.decides (hfold : w.session.settings.folding = true)
    (m : ModulePattern) {n : Nat} {v : Name} {succ fail e : Expr} {D : Meaning} {s : Term}
    (hm : m.Simple u.names) (h : m.Shape u.names Eq n v succ fail e) (hv : Subject u w n v D s)
    (hex : Exits u n succ fail) :
    Decides u w e D succ fail (m.match? s) := by
  match m with
  | .member field bind =>
    obtain ⟨value, has, opened, bound, hvalue, hhas, hopened, hbound, he⟩ := h
    refine .cond he (.hasMember (hv.gives hvalue) hv.static hhas) (fun hsome => ?_) fun hnone => ?_
    · obtain ⟨t, ht⟩ := Option.isSome_iff_exists.1 hsome
      rw [ModulePattern.match?, ht, Option.map_some]
      exact .named (.letIn hbound (.open (hv.gives hvalue) hopened ht fun h => h.member ht)) hm
        (hv.carries.member ht)
    · rw [ModulePattern.match?, Option.isNone_iff_eq_none.1 (Option.isSome_eq_false_iff.1 hnone)]
      rfl
  | .inner field p =>
    obtain ⟨inner, i, matched, value, has, opened, bound, hi, hinner, hmatched, hvalue, hhas,
      hopened, hbound, he⟩ := h
    refine .cond he (.hasMember (hv.gives hvalue) hv.static hhas) (fun hsome => ?_) fun hnone => ?_
    · obtain ⟨t, ht⟩ := Option.isSome_iff_exists.1 hsome
      have hex' := hex.mono (show n ≤ i + 1 by omega)
      rw [ModulePattern.match?, ht, Option.bind_some]
      refine .bound (.letIn hbound (.open (hv.gives hvalue) hopened ht fun h => h.member ht))
        hinner hi hex (hmatched.decides (.new hinner (hv.static.member ht) (hv.carries.member ht))
        hex' fun m x b D' hm' hx hb => ?_)
      exact Pattern.Shape.decides hfold p hm hb hx (hex'.mono hm')
    · rw [ModulePattern.match?, Option.isNone_iff_eq_none.1 (Option.isSome_eq_false_iff.1 hnone)]
      rfl
  | .and parts => exact ModulePattern.PartsShape.decides hfold parts hm h hv hex
  | .or alternatives => exact ModulePattern.AlternativesShape.decides hfold alternatives hm h hv hex
  | .not m =>
    obtain ⟨z, i, thunk, call, body, hi, hz, hthunk, hcall, hbody, he⟩ := h
    have hinner := fun c => ModulePattern.Shape.decides hfold m (D := D.bind z c) hm hbody
      ((hv.bind hz hi).mono (by omega)) (.force hex.missed hi hz hcall)
    rw [ModulePattern.match?]
    cases hr : m.match? s with
    | none =>
      refine .of_some (fun _ hb => absurd hb List.not_mem_nil)
        (.thunk he hthunk hex.found fun c hc => ?_)
      exact ((hinner c).missed hr).trans (.force hcall Meaning.bind_self hc)
    | some bs =>
      refine .of_none (.thunk he hthunk hex.found fun c _ => ((hinner c).found bs hr).congr
        fun x hx => ?_)
      rw [Meaning.extend_of_generated ((hinner c).clean bs hr) (hex.inner x hx),
        Meaning.bind_of_ne (hex.missed.ne hz hi hx)]
  | .xor a b =>
    obtain ⟨z, i, failThunk, callFail, onlyB, body, hi, hz, hfailThunk, hcallFail, honlyB, hbody,
      he⟩ := h
    have hi' : n ≤ i + 1 := by omega
    have hv' := fun c => (hv.bind (t := c) hz hi).mono hi'
    have hforce := Exits.force hex.found hi hz hcallFail
    have hsecond := fun c => ModulePattern.Shape.decides hfold b hm.2 honlyB (hv' c) hforce
    have hbelow : onlyB.Below u (i + 1) := Expr.below_of_freeIn (hv' (.tuple [])) hforce.found
      hforce.missed fun x => ModulePattern.Shape.freeIn hm.2 honlyB
    -- Both copies of the second pattern judge the same value, so they agree.
    have hfirst := fun c k j next d (body : Expr) (hj : i + 1 ≤ j) (hk : u.names.Made k j)
        (hnext : next.IsForce k) (h : body.OnlyFirstShape u.names (j + 1) z succ next
          (fun n succ fail e => a.Shape u.names Eq n v succ fail e)
          (fun n succ fail e => b.Shape u.names Eq n v succ fail e)) =>
      h.goes (D := (D.bind z c).bind k d)
        (((hv' c).bind hk hj).mono (by omega)) hz (by omega) (.force hforce.found hj hk hnext)
        (fun m f g body D _ hv hex h => ModulePattern.Shape.decides hfold a hm.1 h hv hex)
        (fun m f g body D _ hv hex h => ModulePattern.Shape.decides hfold b hm.2 h hv hex)
        fun m f g body x h => ModulePattern.Shape.freeIn hm.2 h
    have hthunk : ∀ c k j d, i + 1 ≤ j → u.names.Made k j →
        ((D.bind z c).bind k d) z = some c := by
      intro c k j d hj hk
      rw [Meaning.bind_of_ne, Meaning.bind_self]
      rintro rfl
      have := hz.unique hk
      omega
    rw [ModulePattern.match?]
    cases ha : a.match? s with
    | none =>
      have hrest := fun c => (hbody.decides (D := D.bind z c) hbelow hforce.found
        fun k j next d body hj hk hnext h =>
          .of_none ((hfirst c k j next d body hj hk hnext h).1 ha)).missed rfl
      cases hb : b.match? s with
      | none =>
        refine .of_none (.thunk he hfailThunk hex.missed fun c hc => ?_)
        exact ((hrest c).trans ((hsecond c).missed hb)).trans
          (.force hcallFail Meaning.bind_self hc)
      | some bs =>
        refine .of_some ((hsecond (.tuple [])).clean bs hb) (.thunk he hfailThunk hex.missed
          fun c _ => ((hrest c).trans ((hsecond c).found bs hb)).congr fun x hx => ?_)
        exact Meaning.extend_congr (Meaning.bind_of_ne (hex.found.ne hz hi hx))
    | some bs =>
      cases hb : b.match? s with
      | none =>
        have hrest := fun c => hbody.decides (D := D.bind z c) hbelow hforce.found
          fun k j next d body hj hk hnext h =>
            have hgoes := (hfirst c k j next d body hj hk hnext h).2 bs ha
            .of_some hgoes.1 (hgoes.2.1 hb)
        refine .of_some ((hrest (.tuple [])).clean bs rfl) (.thunk he hfailThunk hex.missed
          fun c _ => ((hrest c).found bs rfl).congr fun x hx => ?_)
        exact Meaning.extend_congr (Meaning.bind_of_ne (hex.found.ne hz hi hx))
      | some bs' =>
        refine .of_none (.thunk he hfailThunk hex.missed fun c hc => ?_)
        have hz' : ∀ x, fail.FreeIn u x → (D.bind z c) x = D x := fun x hx =>
          Meaning.bind_of_ne (hex.missed.ne hz hi hx)
        have hboth := hbody.decides (D := D.bind z c) hbelow (hex.missed.mono hi')
          fun k j next d body hj hk hnext h =>
            have hgoes := (hfirst c k j next d body hj hk hnext h).2 bs ha
            .of_some (fun _ hb => absurd hb List.not_mem_nil)
              ((hgoes.2.2 bs' c fail D hb (hthunk c k j d hj hk) hc).congr fun x hx => by
                rw [Meaning.extend, List.foldl_nil,
                  Meaning.bind_of_ne (hex.missed.ne hk (by omega) hx), hz' x hx])
        exact (hboth.found [] rfl).congr hz'
termination_by structural m

lemma ModulePattern.PartsShape.decides (hfold : w.session.settings.folding = true)
    (ms : List ModulePattern) {n : Nat} {v : Name} {succ fail e : Expr} {D : Meaning} {s : Term}
    (hm : ModulePattern.AllSimple u.names ms)
    (h : ModulePattern.PartsShape u.names Eq n v succ fail e ms) (hv : Subject u w n v D s)
    (hex : Exits u n succ fail) : Decides u w e D succ fail (ModulePattern.matchAll? s ms) := by
  match ms with
  | [] =>
    obtain rfl : e = succ := h
    exact .succeed
  | m :: rest =>
    obtain ⟨later, hlater, he⟩ := h
    have hbelow : later.Below u n := Expr.below_of_freeIn hv hex.found hex.missed fun x =>
      (ModulePattern.PartsShape.between rest hlater).freeIn
        (ModulePattern.AllSimple.takes rest hm.2)
    refine .both (ModulePattern.Shape.decides hfold m hm.1 he hv (hex.replace hbelow))
      (fun bs _ hbs => ?_) hex.inner
    exact ModulePattern.PartsShape.decides hfold rest hm.2 hlater (hv.extend hbs) hex
termination_by structural ms

lemma ModulePattern.AlternativesShape.decides (hfold : w.session.settings.folding = true)
    (ms : List ModulePattern) {n : Nat} {v : Name} {succ fail e : Expr} {D : Meaning} {s : Term}
    (hm : ModulePattern.AllSimple u.names ms)
    (h : ModulePattern.AlternativesShape u.names Eq n v succ fail e ms) (hv : Subject u w n v D s)
    (hex : Exits u n succ fail) : Decides u w e D succ fail (ModulePattern.matchFirst? s ms) := by
  match ms with
  | [] =>
    obtain rfl : e = fail := h
    exact .failing
  | m :: rest =>
    obtain ⟨later, hlater, he⟩ := h
    have hbelow : later.Below u n := Expr.below_of_freeIn hv hex.found hex.missed fun x =>
      (ModulePattern.AlternativesShape.between rest hlater).freeIn
        (ModulePattern.AllSimple.takes_any rest hm.2)
    refine .or (he.decides hbelow hex.found fun k i next c body hi hk hnext hbody => ?_)
      (ModulePattern.AlternativesShape.decides hfold rest hm.2 hlater hv hex)
    exact ModulePattern.Shape.decides hfold m hm.1 hbody ((hv.bind hk hi).mono (by omega))
      (.force hex.found hi hk hnext)
termination_by structural ms

end

end Residual
