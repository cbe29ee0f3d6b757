import Residual.Proofs.Eval.Signatures
import Residual.Proofs.Session.Keys

/-!
Keys of closures, and the signatures of their calls.

A key does not say which of its bindings is the argument. Main statement: requests with one key
that bind the argument to one name, or whose arguments are both run-time data, have one signature,
and so has the body that is done under the key. Otherwise a key can stand for two signatures.
-/

namespace Residual

open Eval

/-- Two calls of a closure pass variables of the same types, and so do the calls of its value. -/
def SameSignature (args₁ : List Var) (dom₁ : Ty) (args₂ : List Var) (dom₂ : Ty) : Prop :=
  dom₁.beq .content dom₂ = true ∧
    Ty.beqAll .content (args₁.map Var.ty) (args₂.map Var.ty) = true

lemma sameSignature_iff {args₁ args₂ : List Var} {dom₁ dom₂ : Ty} :
    SameSignature args₁ dom₁ args₂ dom₂ ↔ dom₁.code = dom₂.code ∧
      args₁.map (fun v => v.ty.code) = args₂.map (fun v => v.ty.code) := by
  rw [SameSignature, Ty.beq_content_iff, Ty.beqAll_content_iff, Ty.codeAll_eq_iff, List.map_map,
    List.map_map]
  rfl

/-- Nothing can be taken for the argument but the argument: it has one name, or is run-time data
both times. -/
def ToldApart (name₁ : Name) (dom₁ : Ty) (name₂ : Name) (dom₂ : Ty) : Prop :=
  name₁ = name₂ ∨ dom₁.isUnit = false ∧ dom₂.isUnit = false

namespace Eval.SameKey

variable {env₁ env₂ : Env} {body₁ body₂ : Expr} {a₁ a₂ : ClosureArg} {w₁ w₁' w₂ w₂' : World}
  {key : Key} {captured₁ captured₂ : Captured} {values₁ raw₁ values₂ raw₂ : Fields Term}
  {r₁ r₂ : Renaming} {h₁ : Requested env₁ body₁ (some a₁) w₁ key captured₁ w₁' values₁ raw₁ r₁}
  {h₂ : Requested env₂ body₂ (some a₂) w₂ key captured₂ w₂' values₂ raw₂ r₂}

lemma of_grows {t : Session} (hs₁ : w₁'.session.Grows t) (hs₂ : w₂'.session.Grows t)
    (henv₁ : env₁.Formed) (henv₂ : env₂.Formed) (hstore : w₁.session.store.Sorted)
    (hbody : body₁.Sorted) : SameKey h₁ h₂ := by
  obtain ⟨hsymbol, hentered⟩ := (h₁.keyed.mono hs₁).unique (h₂.keyed.mono hs₂)
  have hdoes : Build.Does True (Build.freeNames body₁) (True → ·.Nodup) :=
    Build.does_freeNames fun _ => hbody
  exact ⟨h₁.formed henv₁, h₂.formed henv₂,
    (hdoes w₁.session.store fun _ => hstore).2.2 trivial,
    Build.freeNames_eq hsymbol.symm (h₂.store ▸ hs₂.store) (h₁.store ▸ hs₁.store), hentered⟩

lemma sameSignature_of_dom (h : SameKey h₁ h₂) (hdom : a₁.dom.beq .content a₂.dom = true) :
    SameSignature captured₁.args a₁.dom captured₂.args a₂.dom :=
  sameSignature_iff.2 ⟨(Ty.beq_content_iff _ _).1 hdom,
    h.tys_eq_of_dom ((Ty.beq_content_iff _ _).1 hdom)⟩

lemma sameSignature (h : SameKey h₁ h₂) (htold : ToldApart a₁.name a₁.dom a₂.name a₂.dom) :
    SameSignature captured₁.args a₁.dom captured₂.args a₂.dom := by
  have hname : a₁.name = a₂.name := htold.elim id fun hdata => h.name_eq hdata.1 hdata.2
  exact sameSignature_iff.2 ⟨h.dom_eq hname, h.tys_eq_of_name hname⟩

end Eval.SameKey

/-- A closure that is done answers a request for its key. -/
theorem Session.Answers.closure {s t : Session} (h : s.Answers) {p : Point} {done : Body}
    {trace : Trace} (hfind : s.find? p = some ⟨.done done, trace⟩) (hkind : p.kind = .closure)
    {env : Env} {body : Expr} {a : ClosureArg} {w w' : World} {captured : Captured}
    (henv : env.Formed) (hrun : exec (request env body (some a)) w = (.ok (p.key, captured), w'))
    (hs : s.Grows t) (hw' : w'.session.Grows t) :
    ∃ name v, done.closureParam = some v ∧
      (a.dom.beq .content v.ty = true → SameSignature captured.args a.dom done.params v.ty) ∧
      (ToldApart a.name a.dom name v.ty → SameSignature captured.args a.dom done.params v.ty) := by
  obtain ⟨captured₀, ⟨w₀, env₀, body₀, arg, w₀', hgiven, harg, hrun₀, hgrows⟩, hparams, hparam⟩ :=
    h p done trace hfind
  obtain ⟨a₀, rfl⟩ := Option.isSome_iff_exists.1 (harg.1 hkind)
  obtain ⟨hw₀, henv₀, hbody₀⟩ := hgiven trivial
  obtain ⟨values₀, raw₀, r₀, h₀⟩ := requested_of_request hrun₀
  obtain ⟨values, raw, r, h₁⟩ := requested_of_request hrun
  have hsame : SameKey h₀ h₁ := .of_grows (hgrows.trans hs) hw' henv₀ henv hw₀.session.store hbody₀
  have hparams' : ∀ {args : List Var} {dom : Ty},
      SameSignature args dom captured₀.args a₀.dom → SameSignature args dom done.params a₀.dom := by
    intro args dom hsig
    have hty := h₀.params_ty hsame.formed₁
    rw [hparams] at hty
    exact ⟨hsig.1, hty ▸ hsig.2⟩
  refine ⟨a₀.name, ⟨r₀.tags.next, a₀.dom⟩, ?_, fun hdom => ?_, fun htold => ?_⟩
  · rw [← hparam, h₀.closureParam]
    rfl
  · exact hparams' (hsame.symm.sameSignature_of_dom hdom)
  · exact hparams' (hsame.symm.sameSignature htold)

/-- Two requests for closures with one key have one signature if their domains are equal, and also
if their arguments have one name or are both run-time data. The body that is done under the key
has, under the same conditions, parameters of the types of the arguments that are passed, and an
argument of the domain. -/
theorem closureKey_signature {env₁ env₂ : Env} {body₁ body₂ : Expr} {a₁ a₂ : ClosureArg}
    {w₁ w₁' w₂ w₂' : World} {key : Key} {captured₁ captured₂ : Captured} {t : Session}
    (hstore : w₁.session.store.Sorted) (hbody : body₁.Sorted) (henv₁ : env₁.Formed)
    (henv₂ : env₂.Formed)
    (hrun₁ : exec (request env₁ body₁ (some a₁)) w₁ = (.ok (key, captured₁), w₁'))
    (hrun₂ : exec (request env₂ body₂ (some a₂)) w₂ = (.ok (key, captured₂), w₂'))
    (hs₁ : w₁'.session.Grows t) (hs₂ : w₂'.session.Grows t) :
    (a₁.dom.beq .content a₂.dom = true →
        SameSignature captured₁.args a₁.dom captured₂.args a₂.dom) ∧
      (ToldApart a₁.name a₁.dom a₂.name a₂.dom →
        SameSignature captured₁.args a₁.dom captured₂.args a₂.dom) ∧
      ∀ settings calls c s p done trace,
        Session.Chain { settings } calls → c.Formed →
        (Session.after { settings } calls).store.Grows c.store →
        (Session.after { settings } calls).Reaches c s →
        s.find? p = some ⟨.done done, trace⟩ → p.kind = .closure → p.key = key → s.Grows t →
        ∃ name v, done.closureParam = some v ∧
          (a₁.dom.beq .content v.ty = true →
            SameSignature captured₁.args a₁.dom done.params v.ty) ∧
          (ToldApart a₁.name a₁.dom name v.ty →
            SameSignature captured₁.args a₁.dom done.params v.ty) := by
  obtain ⟨values₁, raw₁, r₁, h₁⟩ := requested_of_request hrun₁
  obtain ⟨values₂, raw₂, r₂, h₂⟩ := requested_of_request hrun₂
  have hsame : SameKey h₁ h₂ := .of_grows hs₁ hs₂ henv₁ henv₂ hstore hbody
  refine ⟨hsame.sameSignature_of_dom, hsame.sameSignature, ?_⟩
  intro settings calls c s p done trace hchain hc hgrows hreach hfind hkind hkey hs
  have hnew : Session.Answers { settings } := fun p body trace h => by cases h
  obtain ⟨hanswers, hformed⟩ := hnew.after (Session.formed_new settings) hchain
  obtain ⟨hanswers, -⟩ := hanswers.reaches hformed hc hgrows hreach
  exact hanswers.closure hfind hkind henv₁ (hkey ▸ hrun₁) hs hs₁

/-! ### Pairs of an argument and a captured value -/

namespace PairClosures

/-- The pair of two names. -/
def body : Expr := .node 2 (.tuple [.node 0 (.var ⟨0⟩), .node 1 (.var ⟨1⟩)])

def number : Ty := .prim (.int .i32)

/-- The second component is captured, and is no run-time data. -/
def constant : Env := .plain [(⟨1⟩, .tuple [])]

/-- The first component is captured, and is a number. -/
def withNumber (tag : Tag) : Env := .plain [(⟨0⟩, .var ⟨tag, number⟩)]

def start : World := ⟨{}, { env := .plain [], tags := {} }⟩

/-- The world after a request. -/
def after (env : Env) (a : ClosureArg) (w : World) : World :=
  (exec (request env body (some a)) w).2

/-- The answer to a request. -/
def answer (env : Env) (a : ClosureArg) (w : World) : Option (Key × Captured) :=
  (exec (request env body (some a)) w).1.toOption

lemma exec_of_answer {env : Env} {a : ClosureArg} {w : World} {key : Key} {captured : Captured}
    (h : answer env a w = some (key, captured)) :
    exec (request env body (some a)) w = (.ok (key, captured), after env a w) := by
  unfold answer at h
  rcases hrun : exec (request env body (some a)) w with ⟨_ | r, w'⟩ <;> rw [hrun] at h <;> cases h
  rw [after, hrun]

lemma sorted_body : body.Sorted := ⟨trivial, trivial, trivial⟩

lemma formed_withNumber (tag : Tag) : (withNumber tag).Formed :=
  ⟨List.pairwise_singleton _ _, trivial, trivial⟩

end PairClosures

open PairClosures in
/-- A number under another tag gives the same key, and the arguments have the same types. -/
theorem closureKey_signature_withNumber : ∃ key c₁ c₂,
    answer (withNumber 5) ⟨⟨1⟩, number⟩ start = some (key, c₁) ∧
      answer (withNumber 7) ⟨⟨1⟩, number⟩ (after (withNumber 5) ⟨⟨1⟩, number⟩ start) =
        some (key, c₂) ∧
      SameSignature c₁.args number c₂.args number := by
  have hkey₁ : (answer (withNumber 5) ⟨⟨1⟩, number⟩ start).map (·.1) = some ⟨0⟩ := by decide +kernel
  have hkey₂ : (answer (withNumber 7) ⟨⟨1⟩, number⟩
      (after (withNumber 5) ⟨⟨1⟩, number⟩ start)).map (·.1) = some ⟨0⟩ := by decide +kernel
  obtain ⟨⟨key, c₁⟩, h₁, rfl⟩ := Option.map_eq_some_iff.1 hkey₁
  obtain ⟨⟨_, c₂⟩, h₂, rfl⟩ := Option.map_eq_some_iff.1 hkey₂
  have hrun₁ := exec_of_answer h₁
  have hrun₂ := exec_of_answer h₂
  obtain ⟨_, _, _, hreq⟩ := requested_of_request hrun₂
  exact ⟨_, c₁, c₂, h₁, h₂, (closureKey_signature (Session.formed_new {}).store sorted_body
    (formed_withNumber 5) (formed_withNumber 7) hrun₁ hrun₂ hreq.grows (.refl _)).2.1 (.inl rfl)⟩

open PairClosures in
/-- One key for two signatures: a closure that is given a number and captured a constant, and one
that is given a constant and captured a number. -/
theorem exists_key_of_two_signatures : ∃ key c₁ c₂,
    answer constant ⟨⟨0⟩, number⟩ start = some (key, c₁) ∧
      answer (withNumber 7) ⟨⟨1⟩, .unit⟩ (after constant ⟨⟨0⟩, number⟩ start) = some (key, c₂) ∧
      c₁.args.length = 0 ∧ c₂.args.length = 1 ∧
      ¬ SameSignature c₁.args number c₂.args .unit := by
  have hfirst : (answer constant ⟨⟨0⟩, number⟩ start).map (fun r => (r.1, r.2.args.length)) =
      some (⟨0⟩, 0) := by decide +kernel
  have hsecond : (answer (withNumber 7) ⟨⟨1⟩, .unit⟩ (after constant ⟨⟨0⟩, number⟩ start)).map
      (fun r => (r.1, r.2.args.length)) = some (⟨0⟩, 1) := by decide +kernel
  obtain ⟨⟨key, c₁⟩, h₁, heq₁⟩ := Option.map_eq_some_iff.1 hfirst
  obtain ⟨⟨_, c₂⟩, h₂, heq₂⟩ := Option.map_eq_some_iff.1 hsecond
  obtain ⟨rfl, hlen₁⟩ := Prod.mk.inj heq₁
  obtain ⟨rfl, hlen₂⟩ := Prod.mk.inj heq₂
  refine ⟨_, c₁, c₂, h₁, h₂, hlen₁, hlen₂, fun hsame => ?_⟩
  cases (sameSignature_iff.1 hsame).1

end Residual
