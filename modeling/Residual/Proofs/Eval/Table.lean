import Residual.Proofs.Eval.Evaluation

/-!
The table of join points.

Between two changes of the table, the finished join points are those that are done, each of them
listed once, and the join points in evaluation are those whose bodies are being evaluated. The
latter form a stack, whose height is the depth. The index of the discipline is that stack.
-/

namespace Residual

namespace PointTable

lemma get?_eq_none_iff {t : PointTable} {p : Point} :
    t.get? p = none ↔ p ∉ t.map Prod.fst := by
  induction t with
  | nil => simp [get?]
  | cons e rest ih =>
    obtain ⟨q, e⟩ := e
    rw [get?_cons, List.map_cons, List.mem_cons]
    split
    · simp_all
    · rename_i h
      simp [ih, h]

lemma mem_iff_get? {t : PointTable} (h : (t.map Prod.fst).Nodup) {p : Point} {e : Entry} :
    (p, e) ∈ t ↔ t.get? p = some e := by
  induction t with
  | nil => simp [get?]
  | cons d rest ih =>
    obtain ⟨q, d⟩ := d
    rw [List.map_cons, List.nodup_cons] at h
    rw [get?_cons, List.mem_cons, ih h.2]
    by_cases hp : p = q
    · subst hp
      have hnone := get?_eq_none_iff.2 h.1
      simp [hnone, eq_comm]
    · simp [hp]

lemma keys_setProgress (t : PointTable) (p : Point) (progress : Progress) :
    (t.setProgress p progress).map Prod.fst = t.map Prod.fst := by
  unfold setProgress
  rw [List.map_map]
  refine List.map_congr_left fun e _ => ?_
  simp only [Function.comp]
  split <;> rfl

lemma get?_foldl_erase (ps : List Point) (t : PointTable) (q : Point) :
    (ps.foldl erase t).get? q = if q ∈ ps then none else t.get? q := by
  induction ps generalizing t with
  | nil => simp
  | cons p rest ih =>
    rw [List.foldl_cons, ih, get?_erase]
    by_cases hq : q ∈ rest
    · simp [hq]
    · by_cases hp : q = p <;> simp [hq, hp]

lemma sublist_foldl_erase (ps : List Point) (t : PointTable) :
    List.Sublist (ps.foldl erase t) t := by
  induction ps generalizing t with
  | nil => exact List.Sublist.refl t
  | cons p rest ih => exact (ih (t.erase p)).trans List.filter_sublist

end PointTable

def Progress.isPending : Progress → Bool
  | .pending _ => true
  | .done _ => false

namespace Session

def Done (s : Session) (p : Point) : Prop :=
  ∃ body trace, s.find? p = some ⟨.done body, trace⟩

def InEvaluation (s : Session) (p : Point) : Prop :=
  ∃ ty trace, s.find? p = some ⟨.pending ty, trace⟩

lemma InEvaluation.not_done {s : Session} {p : Point} (h : s.InEvaluation p) : ¬ s.Done p := by
  obtain ⟨ty, trace, h⟩ := h
  rintro ⟨body, trace', h'⟩
  rw [h] at h'
  cases h'

/-- The state of the table while the bodies of the join points in `stack` are evaluated. -/
structure Consistent (s : Session) (stack : List Point) : Prop where
  keys : (s.points.map Prod.fst).Nodup
  finished : s.finished.Nodup
  done : ∀ p, p ∈ s.finished ↔ s.Done p
  inEvaluation : ∀ p, p ∈ stack ↔ s.InEvaluation p
  nested : stack.Nodup
  depth : s.depth = stack.length
  limit : s.depth ≤ s.settings.maxDepth

namespace Consistent

variable {s : Session} {stack : List Point} {p : Point}

lemma quiet (h : s.Consistent stack) {s' : Session} (hq : s.Quiet s') :
    s'.Consistent stack := by
  rw [hq.rest]
  obtain ⟨h1, h2, h3, h4, h5, h6, h7⟩ := h
  exact ⟨h1, h2, h3, h4, h5, h6, h7⟩

/-- A join point in evaluation can change its promised type. -/
theorem setPending (h : s.Consistent stack) (hp : p ∈ stack) (ty : Option Ty) :
    Consistent { s with points := s.points.setProgress p (.pending ty) } stack := by
  obtain ⟨old, trace, hfind⟩ := (h.inEvaluation p).1 hp
  -- Only the entry of `p` changes, and stays pending.
  have hget : ∀ q, ({ s with points := s.points.setProgress p (.pending ty) } : Session).find? q =
      if q = p then some ⟨.pending ty, trace⟩ else s.find? q := by
    intro q
    change (s.points.setProgress p (.pending ty)).get? q = _
    rw [PointTable.get?_setProgress]
    split
    · rename_i hq
      subst hq
      change s.points.get? q = _ at hfind
      rw [hfind]
      rfl
    · rfl
  refine ⟨?_, h.finished, fun q => ?_, fun q => ?_, h.nested, h.depth, h.limit⟩
  · rw [PointTable.keys_setProgress]
    exact h.keys
  · rw [h.done q]
    unfold Done
    rw [hget]
    by_cases hq : q = p
    · subst hq
      have := InEvaluation.not_done ⟨old, trace, hfind⟩
      simp_all [Done]
    · simp [hq]
  · rw [h.inEvaluation q]
    unfold InEvaluation
    rw [hget]
    by_cases hq : q = p
    · subst hq
      simp [hfind]
    · simp [hq]

/-- The join points that were done last can be forgotten. -/
theorem forgetSince (h : s.Consistent stack) (mark : Nat) :
    (s.forgetSince mark).Consistent stack := by
  -- What is forgotten was done, so nothing in evaluation is.
  have hget : ∀ q, (s.forgetSince mark).find? q =
      if q ∈ s.finished.drop mark then none else s.find? q :=
    PointTable.get?_foldl_erase _ _
  have hsplit : ∀ q, q ∈ s.finished ↔ q ∈ s.finished.take mark ∨ q ∈ s.finished.drop mark := by
    intro q
    rw [← List.mem_append, List.take_append_drop]
  have hdisjoint : ∀ q ∈ s.finished.take mark, q ∉ s.finished.drop mark := by
    have hnodup := h.finished
    rw [← List.take_append_drop mark s.finished, List.nodup_append] at hnodup
    exact fun q h1 h2 => hnodup.2.2 q h1 q h2 rfl
  refine ⟨?_, ?_, fun q => ?_, fun q => ?_, h.nested, h.depth, h.limit⟩
  · exact ((PointTable.sublist_foldl_erase _ _).map _).nodup h.keys
  · exact (List.take_sublist _ _).nodup h.finished
  · change q ∈ s.finished.take mark ↔ _
    unfold Done
    rw [hget]
    have hq := h.done q
    by_cases hdrop : q ∈ s.finished.drop mark
    · simp only [hdrop, if_true, reduceCtorEq, exists_false, iff_false]
      exact fun htake => hdisjoint q htake hdrop
    · simp only [hdrop, if_false]
      rw [← Done, ← hq, hsplit]
      simp [hdrop]
  · rw [h.inEvaluation q]
    unfold InEvaluation
    rw [hget]
    by_cases hdrop : q ∈ s.finished.drop mark
    · have hdone : s.Done q := (h.done q).1 ((hsplit q).2 (.inr hdrop))
      simp only [hdrop, if_true, reduceCtorEq, exists_false, iff_false]
      exact fun hin => InEvaluation.not_done hin hdone
    · simp [hdrop]

/-- The evaluation of a new join point begins. -/
theorem start (h : s.Consistent stack) (hnone : s.find? p = none)
    (hlimit : s.depth < s.settings.maxDepth) (annot : Option Ty) (trace : Trace) :
    Consistent { s with
      points := s.points.insert p ⟨.pending annot, trace⟩
      depth := s.depth + 1 } (p :: stack) := by
  have hget : ∀ q, ({ s with
      points := s.points.insert p ⟨.pending annot, trace⟩
      depth := s.depth + 1 } : Session).find? q =
      if q = p then some ⟨.pending annot, trace⟩ else s.find? q :=
    fun q => PointTable.get?_insert s.points p q _
  -- The join point was in neither list, as it had no entry.
  have hnotDone : ¬ s.Done p := by
    rintro ⟨body, trace, hfind⟩
    rw [hnone] at hfind
    cases hfind
  have hnotIn : p ∉ stack := by
    intro hp
    obtain ⟨ty, trace, hfind⟩ := (h.inEvaluation p).1 hp
    rw [hnone] at hfind
    cases hfind
  refine ⟨?_, h.finished, fun q => ?_, fun q => ?_, ?_, ?_, hlimit⟩
  · exact List.nodup_cons.2 ⟨PointTable.get?_eq_none_iff.1 hnone, h.keys⟩
  · rw [h.done q]
    unfold Done
    rw [hget]
    by_cases hq : q = p
    · subst hq
      simp_all [Done]
    · simp [hq]
  · rw [List.mem_cons, h.inEvaluation q]
    unfold InEvaluation
    rw [hget]
    by_cases hq : q = p
    · simp [hq]
    · simp [hq]
  · exact List.nodup_cons.2 ⟨hnotIn, h.nested⟩
  · rw [List.length_cons, ← h.depth]

/-- The evaluation of a join point ends with a result. -/
theorem complete (h : s.Consistent (p :: stack)) (body : Body) (recTypes : List (Key × Ty))
    (stats : Stats) :
    Consistent { s with
      recTypes
      points := s.points.setProgress p (.done body)
      finished := s.finished ++ [p]
      stats
      depth := s.depth - 1 } stack := by
  obtain ⟨hnotIn, hnodup⟩ := List.nodup_cons.1 h.nested
  obtain ⟨ty, trace, hfind⟩ := (h.inEvaluation p).1 (List.mem_cons_self ..)
  have hnotDone := InEvaluation.not_done ⟨ty, trace, hfind⟩
  -- The entry of `p` was pending and is done now.
  have hget : ∀ q, ({ s with
      recTypes
      points := s.points.setProgress p (.done body)
      finished := s.finished ++ [p]
      stats
      depth := s.depth - 1 } : Session).find? q =
      if q = p then some ⟨.done body, trace⟩ else s.find? q := by
    intro q
    change (s.points.setProgress p (.done body)).get? q = _
    rw [PointTable.get?_setProgress]
    split
    · rename_i hq
      subst hq
      change s.points.get? q = _ at hfind
      rw [hfind]
      rfl
    · rfl
  have hdepth := h.depth
  rw [List.length_cons] at hdepth
  refine ⟨?_, ?_, fun q => ?_, fun q => ?_, hnodup, ?_, ?_⟩
  · rw [PointTable.keys_setProgress]
    exact h.keys
  · refine List.nodup_append.2 ⟨h.finished, by simp, fun a ha b hb => ?_⟩
    rw [List.mem_singleton.1 hb]
    rintro rfl
    exact hnotDone ((h.done a).1 ha)
  · rw [List.mem_append, List.mem_singleton, h.done q]
    unfold Done
    rw [hget]
    by_cases hq : q = p
    · simp [hq]
    · simp [hq]
  · have hin := h.inEvaluation q
    rw [List.mem_cons] at hin
    unfold InEvaluation at hin ⊢
    rw [hget]
    by_cases hq : q = p
    · subst hq
      simp [hnotIn]
    · simpa [hq] using hin
  · simp only
    omega
  · have := h.limit
    simp only
    omega

/-- The evaluation of a join point ends without a result. -/
theorem abandon (h : s.Consistent (p :: stack)) :
    Consistent { s with points := s.points.erase p, depth := s.depth - 1 } stack := by
  obtain ⟨hnotIn, hnodup⟩ := List.nodup_cons.1 h.nested
  have hnotDone := InEvaluation.not_done ((h.inEvaluation p).1 (List.mem_cons_self ..))
  have hget : ∀ q, ({ s with
      points := s.points.erase p, depth := s.depth - 1 } : Session).find? q =
      if q = p then none else s.find? q :=
    PointTable.get?_erase s.points p
  have hdepth := h.depth
  rw [List.length_cons] at hdepth
  refine ⟨?_, h.finished, fun q => ?_, fun q => ?_, hnodup, ?_, ?_⟩
  · exact (List.filter_sublist.map _).nodup h.keys
  · rw [h.done q]
    unfold Done at hnotDone ⊢
    rw [hget]
    by_cases hq : q = p
    · subst hq
      simp [hnotDone]
    · simp [hq]
  · have hin := h.inEvaluation q
    rw [List.mem_cons] at hin
    unfold InEvaluation at hin ⊢
    rw [hget]
    by_cases hq : q = p
    · subst hq
      simp [hnotIn]
    · simpa [hq] using hin
  · simp only
    omega
  · have := h.limit
    simp only
    omega

end Consistent

end Session

/-- The tables only grow, and the scope belongs to the same body. -/
structure World.Later (w w' : World) : Prop where
  grows : w.session.Grows w'.session
  owner : w'.scope.owner = w.scope.owner

namespace World.Later

lemma refl (w : World) : w.Later w := ⟨.refl _, rfl⟩

lemma trans {w₁ w₂ w₃ : World} (h : w₁.Later w₂) (k : w₂.Later w₃) : w₁.Later w₃ :=
  ⟨h.grows.trans k.grows, k.owner.trans h.owner⟩

/-- Changes outside the tables do not count. -/
theorem of_tables {w₁ w₁' w₂ w₂' : World} (h : w₁.Later w₂)
    (h₁ : w₁'.session.store = w₁.session.store ∧ w₁'.session.envs = w₁.session.envs ∧
      w₁'.session.keys = w₁.session.keys)
    (h₂ : w₂'.session.store = w₂.session.store ∧ w₂'.session.envs = w₂.session.envs ∧
      w₂'.session.keys = w₂.session.keys)
    (howner : w₂'.scope.owner = w₁'.scope.owner) : w₁'.Later w₂' := by
  obtain ⟨hs₁, he₁, hk₁⟩ := h₁
  obtain ⟨hs₂, he₂, hk₂⟩ := h₂
  refine ⟨⟨?_, ?_, ?_⟩, howner⟩
  · rw [hs₁, hs₂]
    exact h.grows.store
  · rw [he₁, he₂]
    exact h.grows.envs
  · rw [hk₁, hk₂]
    exact h.grows.keys

/-- Only the environment was changed in between. -/
theorem resetEnv {w w' : World} (env : Env) (h : (w.setEnv env).Later w') :
    w.Later (w'.setEnv w.scope.env) :=
  ⟨h.grows, h.owner⟩

/-- Only the trace was changed in between. -/
theorem resetTrace {w w' : World} (trace : Trace) (h : (w.setTrace trace).Later w') :
    w.Later (w'.setTrace w.scope.trace) :=
  ⟨h.grows, h.owner⟩

end World.Later

/-- The table is consistent, and the scope belongs to the innermost body in evaluation. -/
structure World.InStack (w : World) (stack : List Point) : Prop where
  table : w.session.Consistent stack
  owner : w.scope.owner = stack.head?

namespace World.InStack

variable {w w' : World} {stack : List Point} {p : Point}

lemma mem_owner (h : w.InStack stack) (hp : w.scope.owner = some p) : p ∈ stack := by
  rw [h.owner] at hp
  exact List.mem_of_head? hp

lemma retract (h : w.InStack stack) (hp : w.scope.owner = some p) (mark : Nat) :
    (w.retract p mark).InStack stack :=
  ⟨(h.table.forgetSince mark).setPending (h.mem_owner hp) none, h.owner⟩

lemma start (h : w.InStack stack) (hnone : w.session.find? p = none)
    (hlimit : w.session.depth < w.session.settings.maxDepth) (captured : Eval.Captured)
    (annot : Option Ty) : (w.atBody p captured annot).InStack (p :: stack) :=
  ⟨h.table.start hnone hlimit annot w.scope.trace, rfl⟩

lemma complete (h : w.InStack stack) (h' : w'.InStack (p :: stack)) (term : Term)
    (captured : Eval.Captured) :
    ((w'.setScope w.scope).complete p term captured).InStack stack :=
  ⟨h'.table.complete _ _ _, h.owner⟩

lemma abandon (h : w.InStack stack) (h' : w'.InStack (p :: stack)) :
    ((w'.setScope w.scope).abandon p).InStack stack :=
  ⟨h'.table.abandon, h.owner⟩

end World.InStack

/-- Evaluation keeps the table of join points consistent. -/
def Discipline.table : Discipline where
  Index := List Point
  strict := False
  Inv stack w := w.InStack stack
  Le := World.Later
  Known _ _ _ _ := True
  inner stack p := p :: stack
  within i _ := i
  le_refl := .refl
  le_trans := .trans
  le_grows := World.Later.grows
  le_owner := World.Later.owner
  known_le _ _ _ := trivial
  known_pending _ _ _ _ := trivial
  known_done _ _ _ _ := trivial
  known_stmts h := h.elim
  quiet h hq := ⟨⟨h.table.quiet hq, h.owner⟩, hq.grows, rfl⟩
  tags h _ := ⟨⟨h.table, h.owner⟩, .refl _, rfl⟩
  push h _ := ⟨⟨h.table, h.owner⟩, .refl _, rfl⟩
  share h _ _ _ := ⟨⟨h.table, h.owner⟩, .refl _, rfl⟩
  setEnv _ h := ⟨h.table, h.owner⟩
  resetEnv := World.Later.resetEnv
  setTrace _ h := ⟨h.table, h.owner⟩
  resetTrace := World.Later.resetTrace
  enterBranch h := ⟨h.table, h.owner⟩
  leaveBranch _ h' hle := ⟨⟨h'.table, h'.owner⟩, hle.grows, hle.owner⟩
  guess _ h hp _ := ⟨⟨h.table.setPending (h.mem_owner hp) _, h.owner⟩,
    (World.Later.refl _).of_tables ⟨rfl, rfl, rfl⟩ ⟨rfl, rfl, rfl⟩ rfl⟩
  retract _ hp _ h' hle _ := ⟨h'.retract (hle.owner.trans hp) _,
    hle.of_tables ⟨rfl, rfl, rfl⟩ ⟨rfl, rfl, rfl⟩ hle.owner⟩
  start h hnone hlimit _ := h.start hnone hlimit _ _
  complete h _ _ h' hle _ _ _ := ⟨h.complete h' _ _,
    hle.of_tables ⟨rfl, rfl, rfl⟩ ⟨rfl, rfl, rfl⟩ rfl, fun _ _ _ => trivial⟩
  abandon h _ h' hle := ⟨h.abandon h', hle.of_tables ⟨rfl, rfl, rfl⟩ ⟨rfl, rfl, rfl⟩ rfl⟩

instance : Discipline.table.Unguarded :=
  ⟨fun _ _ => trivial, fun _ _ _ => trivial, fun h => h⟩

end Residual
