import Residual.Proofs.Eval.Requests
import Residual.Proofs.Session.Calls

/-!
Keys of join points.

Main statement: two requests of one body get the same key exactly if an injective change of tags
makes the captured values of the second of those of the first. It then makes the arguments of the
second call of those of the first, place by place. A body that is done under the key of a request
has parameters of the types of the arguments.

For the last part every done body is traced back to the request that it answers.
-/

namespace Residual

open Eval

namespace Session

/-- Every body that is done has the parameters of a request that was made before. -/
def Answers (s : Session) : Prop :=
  ∀ p body trace, s.find? p = some ⟨.done body, trace⟩ →
    ∃ captured, s.Asked True p captured ∧ captured.params = body.params ∧
      captured.closureParam = body.closureParam

/-- Nothing new is done. -/
theorem Answers.mono {s s' : Session} (h : s.Answers) (hs : s.Grows s')
    (hdone : ∀ p body trace, s'.find? p = some ⟨.done body, trace⟩ →
      s.find? p = some ⟨.done body, trace⟩) : s'.Answers := by
  intro p body trace hfind
  obtain ⟨captured, hasked, hparams⟩ := h p body trace (hdone p body trace hfind)
  exact ⟨captured, hasked.mono hs, hparams⟩

lemma done_of_setPending {s : Session} {p q : Point} {ty : Option Ty} {body : Body}
    {trace : Trace}
    (h : (s.points.setProgress p (.pending ty)).get? q = some ⟨.done body, trace⟩) :
    s.find? q = some ⟨.done body, trace⟩ := by
  rw [PointTable.get?_setProgress] at h
  split at h
  · obtain ⟨e, -, he⟩ := Option.map_eq_some_iff.1 h
    cases he
  · exact h

lemma done_of_forgetSince {s : Session} {mark : Nat} {q : Point} {e : Entry}
    (h : (s.forgetSince mark).find? q = some e) : s.find? q = some e := by
  have hget : (s.forgetSince mark).find? q = if q ∈ s.finished.drop mark then none else s.find? q :=
    PointTable.get?_foldl_erase _ _ _
  rw [hget] at h
  split at h
  · cases h
  · exact h

lemma done_of_start {s : Session} {p q : Point} {annot : Option Ty} {trace trace' : Trace}
    {body : Body}
    (h : (s.points.insert p ⟨.pending annot, trace⟩).get? q = some ⟨.done body, trace'⟩) :
    s.find? q = some ⟨.done body, trace'⟩ := by
  rw [PointTable.get?_insert] at h
  split at h
  · cases h
  · exact h

lemma done_of_abandon {s : Session} {p q : Point} {e : Entry}
    (h : (s.points.erase p).get? q = some e) : s.find? q = some e := by
  rw [PointTable.get?_erase] at h
  split at h
  · cases h
  · exact h

/-- A body that is done answers the request for which it was evaluated. -/
theorem Answers.complete {s s' : Session} (h : s.Answers) (hs : s.Grows s') {p : Point}
    {captured : Captured} (hasked : s'.Asked True p captured) {body : Body}
    (hparams : captured.params = body.params ∧ captured.closureParam = body.closureParam)
    (hpoints : s'.points = s.points.setProgress p (.done body)) : s'.Answers := by
  intro q body' trace hfind
  change s'.points.get? q = _ at hfind
  rw [hpoints, PointTable.get?_setProgress] at hfind
  split at hfind
  · rename_i hq
    obtain ⟨e, -, he⟩ := Option.map_eq_some_iff.1 hfind
    cases he
    exact ⟨captured, hq ▸ hasked, hparams⟩
  · obtain ⟨captured, hasked, hparams⟩ := h q body' trace hfind
    exact ⟨captured, hasked.mono hs, hparams⟩

end Session

/-- Evaluation keeps track of the requests that the bodies answer. -/
def Discipline.answers : Discipline where
  Index := Unit
  strict := True
  Inv _ w := w.session.Answers
  Le := World.Later
  Known _ _ _ _ := True
  inner _ _ := ()
  within i _ := i
  le_refl := .refl
  le_trans := .trans
  le_grows := World.Later.grows
  le_owner := World.Later.owner
  known_le _ _ _ := trivial
  known_pending _ _ _ _ := trivial
  known_done _ _ _ _ := trivial
  known_stmts _ _ _ _ _ _ := trivial
  quiet h hq := by
    refine ⟨h.mono hq.grows fun p body trace hfind => ?_, hq.grows, rfl⟩
    dsimp only at hfind
    rw [hq.rest] at hfind
    exact hfind
  tags h _ := ⟨h, .refl _, rfl⟩
  push h _ := ⟨h, .refl _, rfl⟩
  share h _ _ _ := ⟨h, .refl _, rfl⟩
  setEnv _ h := h
  resetEnv := World.Later.resetEnv
  setTrace _ h := h
  resetTrace := World.Later.resetTrace
  enterBranch h := h
  leaveBranch _ h' hle := ⟨h', hle.grows, hle.owner⟩
  guess _ h _ _ := ⟨h.mono ⟨.refl _, .refl _, .refl _⟩ fun _ _ _ => Session.done_of_setPending,
    (World.Later.refl _).of_tables ⟨rfl, rfl, rfl⟩ ⟨rfl, rfl, rfl⟩ rfl⟩
  retract _ _ _ h' hle _ := ⟨h'.mono ⟨.refl _, .refl _, .refl _⟩ fun _ _ _ hfind =>
      Session.done_of_forgetSince (Session.done_of_setPending hfind),
    hle.of_tables ⟨rfl, rfl, rfl⟩ ⟨rfl, rfl, rfl⟩ hle.owner⟩
  start h _ _ _ := h.mono ⟨.refl _, .refl _, .refl _⟩ fun _ _ _ => Session.done_of_start
  complete _ _ hasked h' hle _ _ _ := ⟨h'.complete ⟨.refl _, .refl _, .refl _⟩
      (hasked.mono ⟨hle.grows.store, hle.grows.envs, hle.grows.keys⟩) ⟨rfl, rfl⟩ rfl,
    hle.of_tables ⟨rfl, rfl, rfl⟩ ⟨rfl, rfl, rfl⟩ rfl, fun _ _ _ => trivial⟩
  abandon _ _ h' hle := ⟨h'.mono ⟨.refl _, .refl _, .refl _⟩ fun _ _ _ => Session.done_of_abandon,
    hle.of_tables ⟨rfl, rfl, rfl⟩ ⟨rfl, rfl, rfl⟩ rfl⟩

instance : Discipline.answers.Unguarded :=
  ⟨fun _ _ => trivial, fun _ _ _ => trivial, fun h => h⟩

/-! ### Sessions of one compiler -/

namespace Session

/-- The compilations follow each other: each starts from a store that has all that was in the
store after the one before. -/
def Chain : Session → List Call → Prop
  | _, [] => True
  | s, c :: rest => c.Formed ∧ s.store.Grows c.store ∧ Chain (c.run s).2 rest

/-- The session `s'` occurs in a compilation from `s`, on the way or at the end. -/
def Reaches (s : Session) (c : Call) (s' : Session) : Prop :=
  s' = (c.run s).2 ∨ ∃ stack fuel e w,
    Visits c.fuel c.code (c.world s) stack fuel e w ∧ s' = w.session

lemma Answers.good {s : Session} (h : s.Answers) (hs : s.Formed) {c : Call} (hc : c.Formed)
    (hstore : s.store.Grows c.store) : Discipline.answers.Good () (c.world s) := by
  have hdoes : Build.Does True (Build.filter c.expr) (Build.Fine True) :=
    Build.does_filter fun _ => hc.expr
  have hgrows : s.Grows (c.world s).session :=
    ⟨hstore.trans (hdoes c.store fun _ => hc.store).1, .refl _, .refl _⟩
  obtain ⟨-, h2, h3, h4⟩ := hs
  exact ⟨h.mono hgrows fun _ _ _ hfind => hfind, fun _ => ⟨⟨hc.filtered.2, h2, h3, h4⟩, hc.env,
    fun _ he => absurd he List.not_mem_nil⟩⟩

lemma Answers.reaches {s : Session} (h : s.Answers) (hs : s.Formed) {c : Call} (hc : c.Formed)
    (hstore : s.store.Grows c.store) {s' : Session} (hreach : s.Reaches c s') :
    s'.Answers ∧ s'.Formed := by
  have hgood := h.good hs hc hstore
  rcases hreach with rfl | ⟨stack, fuel, e, w, hvisit, rfl⟩
  · obtain ⟨-, hend, -, -⟩ := Discipline.does_eval c.fuel (fun _ => hc.filtered.1) hgood
    rw [c.session_run s]
    exact ⟨hend.1, (hend.2 trivial).session⟩
  · obtain ⟨⟨_, hw⟩, -⟩ := hvisit.good hgood fun _ => hc.filtered.1
    exact ⟨hw.1, (hw.2 trivial).session⟩

lemma Answers.after {s : Session} (h : s.Answers) (hs : s.Formed) {calls : List Call}
    (hchain : s.Chain calls) : (s.after calls).Answers ∧ (s.after calls).Formed := by
  induction calls generalizing s with
  | nil => exact ⟨h, hs⟩
  | cons c rest ih =>
    obtain ⟨hc, hstore, hrest⟩ := hchain
    obtain ⟨hrun, hformed⟩ := h.reaches hs hc hstore (.inl rfl)
    exact ih hrun hformed hrest

end Session

/-- A body that is done under the key of a request has parameters of the types of its
arguments. -/
lemma Session.Answers.params_eq {s t : Session} (h : s.Answers) {p : Point} {done : Body}
    {trace : Trace} (hfind : s.find? p = some ⟨.done done, trace⟩) (hkind : p.kind ≠ .closure)
    {env : Env} {body : Expr} {w w' : World} {captured : Captured}
    (hformed : ∀ t ∈ capturedValues w env body, t.Formed)
    (hrun : exec (request env body none) w = (.ok (p.key, captured), w'))
    (hs : s.Grows t) (hw' : w'.session.Grows t) :
    Ty.beqAll .content (captured.args.map Var.ty) (done.params.map Var.ty) = true := by
  obtain ⟨captured₀, ⟨w₀, env₀, body₀, arg, w₀', hgiven, harg, hrun₀, hgrows⟩, hparams, -⟩ :=
    h p done trace hfind
  obtain ⟨hw₀, henv₀, hbody₀⟩ := hgiven trivial
  obtain rfl : arg = none := Option.not_isSome_iff_eq_none.1 fun h => hkind (harg.2 h)
  obtain ⟨values₀, raw₀, r₀, h₀⟩ := exec_request hrun₀
  obtain ⟨values, raw, r, h₁⟩ := exec_request hrun
  have hformed₀ : ∀ t ∈ capturedValues w₀ env₀ body₀, t.Formed := by
    intro t ht
    obtain ⟨x, -, hx⟩ := List.mem_filterMap.1 ht
    exact henv₀.get? hx
  have htys := h₀.tys_eq h₁ (hgrows.trans hs) hw' hformed₀ hformed
    (h₀.nodup hw₀.session.store hbody₀) rfl
  rw [Ty.beqAll_content_iff, Ty.codeAll_eq_iff, ← hparams, (h₀.args_eq hformed₀).2, List.map_map,
    List.map_map]
  exact htys.symm

/-- Requests of one body get the same key exactly if their captured values are one up to an
injective change of tags, which then turns the arguments of the first into those of the second.
The parameters of a body that is done under a key have the types of the arguments of every request
with this key. -/
theorem requests_canonical {env₁ env₂ : Env} {body : Expr} {w₁ w₁' w₂ w₂' : World}
    {key₁ key₂ : Key} {captured₁ captured₂ : Captured} (hstore : w₁.session.store.Sorted)
    (hbody : body.Sorted) (hformed₁ : ∀ t ∈ capturedValues w₁ env₁ body, t.Formed)
    (hformed₂ : ∀ t ∈ capturedValues w₂ env₂ body, t.Formed)
    (hrun₁ : exec (request env₁ body none) w₁ = (.ok (key₁, captured₁), w₁'))
    (hlater : w₁'.session.Grows w₂.session)
    (hrun₂ : exec (request env₂ body none) w₂ = (.ok (key₂, captured₂), w₂')) :
    (key₁ = key₂ ↔
        ∃ σ, Relabels σ (capturedValues w₁ env₁ body) (capturedValues w₂ env₂ body)) ∧
      (∀ σ, Relabels σ (capturedValues w₁ env₁ body) (capturedValues w₂ env₂ body) →
        Var.beqAll .content (captured₁.args.map fun v => ⟨σ v.tag, v.ty⟩) captured₂.args = true) ∧
      ∀ settings calls c s p done trace t,
        Session.Chain { settings } calls → c.Formed →
        (Session.after { settings } calls).store.Grows c.store →
        (Session.after { settings } calls).Reaches c s →
        s.find? p = some ⟨.done done, trace⟩ → p.kind ≠ .closure → p.key = key₁ →
        s.Grows t → w₁'.session.Grows t →
        Ty.beqAll .content (captured₁.args.map Var.ty) (done.params.map Var.ty) = true := by
  obtain ⟨values₁, raw₁, r₁, h₁⟩ := exec_request hrun₁
  obtain ⟨values₂, raw₂, r₂, h₂⟩ := exec_request hrun₂
  have hnodup := h₁.nodup hstore hbody
  have hnames := h₁.names_eq h₂ (hlater.trans h₂.grows) (.refl _) rfl
  refine ⟨h₁.key_eq_iff hlater h₂ hformed₁ hformed₂ hnodup rfl hnames, fun σ hσ => ?_, ?_⟩
  · -- Variables are passed in the order of their first uses, which a relabelling keeps.
    rw [Var.beqAll_content_iff, Var.codeAll_eq_iff, List.map_map, (h₁.args_eq hformed₁).1,
      (h₂.args_eq hformed₂).1]
    have hcodes := congrArg (List.map fun m : Tag × Code => (m.1 : Int) :: m.2) hσ.firsts
    rw [List.map_map, List.map_map] at hcodes
    refine hcodes.trans (List.map_congr_left fun v _ => ?_)
    cases v
    rfl
  · -- A finished body answers a request, so its parameters are those of a request with this key.
    intro settings calls c s p done trace t hchain hc hgrows hreach hfind hkind hkey hs hw'
    have hnew : Session.Answers { settings } := fun p body trace h => by cases h
    obtain ⟨hanswers, hformed⟩ := hnew.after (Session.formed_new settings) hchain
    obtain ⟨hanswers, -⟩ := hanswers.reaches hformed hc hgrows hreach
    exact hanswers.params_eq hfind hkind hformed₁ (hkey ▸ hrun₁) hs hw'

/-! ### A variable under two tags -/

namespace TwoTags

def body : Expr := .node 0 (.var ⟨0⟩)

def env (tag : Tag) : Env := .plain [(⟨0⟩, .var ⟨tag, .prim (.int .i32)⟩)]

def start : World := ⟨{}, { env := .plain [], tags := {} }⟩

/-- The world after the first request. -/
def next : World := (exec (request (env 5) body none) start).2

lemma formed_captured (w : World) (tag : Tag) :
    ∀ t ∈ capturedValues w (env tag) body, t.Formed := by
  intro t ht
  obtain ⟨x, -, hx⟩ := List.mem_filterMap.1 ht
  have henv : (env tag).Formed := ⟨List.pairwise_singleton _ _, trivial, trivial⟩
  exact henv.get? hx

lemma relabels :
    Relabels (fun _ => 7) (capturedValues start (env 5) body)
      (capturedValues next (env 7) body) := by
  have h₁ : capturedValues start (env 5) body = [.var ⟨5, .prim (.int .i32)⟩] := rfl
  have h₂ : capturedValues next (env 7) body = [.var ⟨7, .prim (.int .i32)⟩] := rfl
  rw [h₁, h₂]
  refine ⟨fun s hs t ht _ => ?_, by decide⟩
  rw [List.mem_singleton.1 hs, List.mem_singleton.1 ht]

end TwoTags

/-- The same body with another variable of the same type gets the same key, and the variables
become the arguments. -/
theorem requests_canonical_twoTags : ∃ key c₁ c₂ w₂,
    exec (request (TwoTags.env 5) TwoTags.body none) TwoTags.start =
        (.ok (key, c₁), TwoTags.next) ∧
      exec (request (TwoTags.env 7) TwoTags.body none) TwoTags.next = (.ok (key, c₂), w₂) ∧
      Var.beqAll .content (c₁.args.map fun v => ⟨7, v.ty⟩) c₂.args = true := by
  have hok₁ : (exec (request (TwoTags.env 5) TwoTags.body none) TwoTags.start).1.isOk := by
    decide +kernel
  have hok₂ : (exec (request (TwoTags.env 7) TwoTags.body none) TwoTags.next).1.isOk := by
    decide +kernel
  rcases h₁ : exec (request (TwoTags.env 5) TwoTags.body none) TwoTags.start with
    ⟨_ | ⟨k₁, c₁⟩, w₁⟩ <;> rw [h₁] at hok₁
  · cases hok₁
  rcases h₂ : exec (request (TwoTags.env 7) TwoTags.body none) TwoTags.next with
    ⟨_ | ⟨k₂, c₂⟩, w₂⟩ <;> rw [h₂] at hok₂
  · cases hok₂
  have hw₁ : w₁ = TwoTags.next := by rw [TwoTags.next, h₁]
  subst hw₁
  obtain ⟨hkey, hargs, -⟩ := requests_canonical (Session.formed_new {}).store
    (show TwoTags.body.Sorted from trivial) (TwoTags.formed_captured _ 5)
    (TwoTags.formed_captured _ 7) h₁ (.refl _) h₂
  cases hkey.2 ⟨_, TwoTags.relabels⟩
  exact ⟨k₁, c₁, c₂, w₂, rfl, rfl, hargs _ TwoTags.relabels⟩

end Residual
