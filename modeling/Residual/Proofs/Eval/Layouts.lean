import Mathlib.Data.List.Range
import Residual.Proofs.Eval.Exec
import Residual.Proofs.Typed.ValueRenaming

/-!
Packed maps.

Packing a map lists its variables and keeps the rest in the type, in canonical tags. Unpacking reads
the variables one after the other and puts the new ones into the environment of the type. Main
statement: what comes out is what went in, with each packed variable replaced by the one that was
read for it, and nothing else is emitted.
-/

namespace Residual

open Eval

/-! ### Emission -/

/-- Statements are added, and the tags that they bind are drawn. -/
def World.emits (w : World) (stmts : List Stmt) : World :=
  { w with scope :=
    { w.scope with
      stmts := w.scope.stmts ++ stmts
      tags := ⟨w.scope.tags.next + stmts.length⟩ } }

lemma World.emits_nil (w : World) : w.emits [] = w := by
  rw [emits, List.append_nil]
  rfl

lemma World.emits_emits (w : World) (as bs : List Stmt) :
    (w.emits as).emits bs = w.emits (as ++ bs) := by
  simp only [emits, List.append_assoc, List.length_append, Nat.add_assoc]

namespace Eval

/-- A variable takes the next tag, if there is one. -/
theorem exec_freshVar (ty : Ty) {w : World} (hroom : w.scope.tags.next < Tags.limit) :
    exec (freshVar ty) w =
      (.ok ⟨w.scope.tags.next, ty⟩, w.setTags ⟨w.scope.tags.next + 1⟩) := by
  have htag : w.scope.tags.fresh? = some (w.scope.tags.next, ⟨w.scope.tags.next + 1⟩) :=
    Tags.fresh?_eq_some_iff.2 ⟨hroom, rfl, rfl⟩
  rw [freshVar, freshTag, exec_bind, exec_bind_of_ok (exec_getScope w), htag]
  rfl

lemma exec_freshVar_of_full (ty : Ty) {w : World} (hfull : Tags.limit ≤ w.scope.tags.next) :
    exec (freshVar ty) w = (.error .tagsExhausted, w) := by
  have htag : w.scope.tags.fresh? = none := if_neg (Nat.not_lt.2 hfull)
  rw [freshVar, freshTag, exec_bind, exec_bind_of_ok (exec_getScope w), htag]
  rfl

/-- Code whose result is run-time data is bound to a new variable. -/
theorem exec_bindResult_of_data {ty : Ty} (hdata : ty.isUnit = false) (t : Term) {w : World}
    (hroom : w.scope.tags.next < Tags.limit) :
    exec (bindResult t ty) w = (.ok (.var ⟨w.scope.tags.next, ty⟩),
      w.emits [.letIn ⟨w.scope.tags.next, ty⟩ t w.scope.trace]) := by
  rw [bindResult, hdata, if_neg Bool.false_ne_true, exec_bind_of_ok (exec_freshVar ty hroom)]
  rfl

lemma exec_bindResult_of_full {ty : Ty} (hdata : ty.isUnit = false) (t : Term) {w : World}
    (hfull : Tags.limit ≤ w.scope.tags.next) :
    exec (bindResult t ty) w = (.error .tagsExhausted, w) := by
  rw [bindResult, hdata, if_neg Bool.false_ne_true,
    exec_bind_of_error (exec_freshVar_of_full ty hfull)]

/-- The result of an operation that is never shared. -/
lemma exec_emit_of_data {op : Op} (hpure : op.isPure = false) (args : List Term) {ty : Ty}
    (hdata : ty.isUnit = false) {w : World} (hroom : w.scope.tags.next < Tags.limit) :
    exec (emit op args ty) w = (.ok (.var ⟨w.scope.tags.next, ty⟩),
      w.emits [.letIn ⟨w.scope.tags.next, ty⟩ (.op op args ty) w.scope.trace]) := by
  rw [emit, exec_bind_of_ok (exec_getSession w), hpure, Bool.and_false, Bool.false_and,
    if_neg Bool.false_ne_true, exec_bindResult_of_data hdata _ hroom]

lemma exec_emit_of_full {op : Op} (hpure : op.isPure = false) (args : List Term) {ty : Ty}
    (hdata : ty.isUnit = false) {w : World} (hfull : Tags.limit ≤ w.scope.tags.next) :
    exec (emit op args ty) w = (.error .tagsExhausted, w) := by
  rw [emit, exec_bind_of_ok (exec_getSession w), hpure, Bool.and_false, Bool.false_and,
    if_neg Bool.false_ne_true, exec_bindResult_of_full hdata _ hfull]

/-! ### Packing -/

/-- Packing binds a packed value of the variables to a new variable. The type keeps the map in
canonical tags. -/
lemma exec_pack {l : Layout} {env : Env} {kind : MapKind} (henv : env.Formed) {w : World}
    (hfew : env.packed.length ≤ Tags.limit) (hroom : w.scope.tags.next < Tags.limit) :
    ∃ env' s, (Rename.env env).run { envs := w.session.envs } = some (env', s) ∧
      exec (layoutOp (.pack l) [.map env kind]) w =
        (.ok (.var ⟨w.scope.tags.next, .layout l env' kind⟩),
          (w.setEnvs s.envs).emits [.letIn ⟨w.scope.tags.next, .layout l env' kind⟩
            (.op (.layout (.pack l)) [.tuple (env.packed.map .var)] (.layout l env' kind))
            w.scope.trace]) := by
  obtain ⟨env', s, hrun⟩ := Rename.exists_run_env w.session.envs henv hfew
  refine ⟨env', s, hrun, ?_⟩
  have hrename : exec (rename (fun envs => { envs }) (Rename.env env)) w =
      (.ok (env', s), w.setEnvs s.envs) := by rw [exec_rename, hrun]
  have hoperand : exec (operand (.layout (.pack l)) [.map env kind]) w = (.ok (.map env kind), w) :=
    rfl
  have hmap : exec (mapValue (.layout (.pack l)) (.map env kind)) w = (.ok (env, kind), w) := rfl
  rw [layoutOp, exec_bind_of_ok hoperand]
  dsimp only
  rw [exec_bind_of_ok hmap]
  dsimp only
  rw [exec_bind_of_ok hrename, ← (Rename.packed_env henv hrun).listed]
  exact exec_bindResult_of_data rfl _ hroom

/-! ### Unpacking -/

/-- The reads of the packed values from index `i` on, by tags from `n` on. -/
def readsFrom (x : Var) (trace : Trace) (i : Nat) (n : Tag) (fields : List Var) : List Stmt :=
  fields.mapIdx fun j field =>
    .letIn ⟨n + j, field.ty⟩ (.op (.layout (.read (i + j))) [.var x] field.ty) trace

lemma readsFrom_cons (x : Var) (trace : Trace) (i : Nat) (n : Tag) (field : Var)
    (rest : List Var) : readsFrom x trace i n (field :: rest) =
      .letIn ⟨n, field.ty⟩ (.op (.layout (.read i)) [.var x] field.ty) trace ::
        readsFrom x trace (i + 1) (n + 1) rest := by
  rw [readsFrom, readsFrom, List.mapIdx_cons]
  congr 2
  funext j field
  rw [Nat.add_right_comm n, Nat.add_right_comm i, Nat.add_assoc n, Nat.add_assoc i]

lemma length_readsFrom (x : Var) (trace : Trace) (i : Nat) (n : Tag) (fields : List Var) :
    (readsFrom x trace i n fields).length = fields.length := List.length_mapIdx ..

/-- Each packed value is read to a new variable, in order. -/
lemma exec_readPacked (x : Var) {fields : List Var} (hdata : ∀ f ∈ fields, f.ty.isUnit = false)
    {i : Nat} {w : World} (hroom : w.scope.tags.next + fields.length ≤ Tags.limit) :
    exec (readPacked x i fields) w =
      (.ok (fields.mapIdx fun j f => (f.tag, w.scope.tags.next + j)),
        w.emits (readsFrom x w.scope.trace i w.scope.tags.next fields)) := by
  induction fields generalizing i w with
  | nil =>
    rw [readsFrom, List.mapIdx_nil, List.mapIdx_nil, World.emits_nil]
    rfl
  | cons field rest ih =>
    obtain ⟨hfield, hrest⟩ := List.forall_mem_cons.1 hdata
    rw [List.length_cons] at hroom
    have hread : exec (emit (.layout (.read i)) [.var x] field.ty) w = _ :=
      exec_emit_of_data rfl [.var x] hfield (Nat.lt_of_lt_of_le (by omega) hroom)
    have hlater := ih hrest (i := i + 1) (w := w.emits [.letIn ⟨w.scope.tags.next, field.ty⟩
      (.op (.layout (.read i)) [.var x] field.ty) w.scope.trace])
      (Nat.le_trans (by simp only [World.emits, List.length_singleton]; omega) hroom)
    rw [readPacked, exec_bind_of_ok hread, exec_bind_of_ok hlater, readsFrom_cons,
      World.emits_emits, List.singleton_append]
    refine Prod.ext (congrArg Except.ok ?_) rfl
    rw [List.mapIdx_cons]
    congr 2
    funext j f
    simp only [World.emits, List.length_singleton]
    rw [Nat.add_right_comm, Nat.add_assoc]

/-- The reads end where no tag is left. -/
lemma exec_readPacked_of_full (x : Var) {fields : List Var}
    (hdata : ∀ f ∈ fields, f.ty.isUnit = false) {i : Nat} {w : World}
    (hroom : w.scope.tags.next ≤ Tags.limit)
    (hfull : Tags.limit < w.scope.tags.next + fields.length) :
    (exec (readPacked x i fields) w).1 = .error .tagsExhausted := by
  induction fields generalizing i w with
  | nil => exact absurd hroom (Nat.not_le.2 hfull)
  | cons field rest ih =>
    obtain ⟨hfield, hrest⟩ := List.forall_mem_cons.1 hdata
    rw [readPacked]
    by_cases hnext : w.scope.tags.next < Tags.limit
    · have hread : exec (emit (.layout (.read i)) [.var x] field.ty) w = _ :=
        exec_emit_of_data rfl [.var x] hfield hnext
      rw [List.length_cons, Nat.add_comm rest.length, ← Nat.add_assoc] at hfull
      have hlater := ih hrest (i := i + 1) (w := w.emits [.letIn ⟨w.scope.tags.next, field.ty⟩
        (.op (.layout (.read i)) [.var x] field.ty) w.scope.trace]) hnext hfull
      rw [exec_bind_of_ok hread, exec_bind_of_error (Prod.ext hlater rfl)]
    · have hread : exec (emit (.layout (.read i)) [.var x] field.ty) w = _ :=
        exec_emit_of_full rfl [.var x] hfield (Nat.not_lt.1 hnext)
      rw [exec_bind_of_error hread]

/-- The tags of the packed variables, each with that of its read. The latest read comes first. -/
def readTags (n : Tag) (fields : List Var) : List (Tag × Tag) :=
  (fields.mapIdx fun j field => (field.tag, n + j)).reverse

lemma olds_readTags (n : Tag) (fields : List Var) :
    (readTags n fields).map Prod.fst = (fields.map Var.tag).reverse := by
  rw [readTags, List.map_reverse]
  exact congrArg List.reverse (List.ext_getElem (by simp) fun j _ _ => by simp)

lemma tidy_readTags (envs : EnvTable) (n : Tag) {fields : List Var}
    (hnodup : (fields.map Var.tag).Nodup) :
    Renaming.Tidy n
      { envs, tags := ⟨n + fields.length⟩, renamed := readTags n fields } where
  olds := by
    rw [Renaming.olds, olds_readTags]
    exact List.nodup_reverse.2 hnodup
  news := by
    rw [readTags, List.map_reverse, List.length_reverse, List.length_mapIdx]
    exact congrArg List.reverse (List.ext_getElem (by simp) fun j _ _ => by simp)
  next := by simp [readTags]
  params := .nil

lemma lookup_readTags (n : Tag) {fields : List Var} (hnodup : (fields.map Var.tag).Nodup)
    {tag : Tag} (h : tag ∈ fields.map Var.tag) :
    (readTags n fields).lookup tag = some (n + (fields.map Var.tag).idxOf tag) := by
  have hlt := List.idxOf_lt_length_of_mem h
  have hfound : (fields.map Var.tag)[(fields.map Var.tag).idxOf tag] = tag :=
    List.getElem_idxOf hlt
  have hmem : (tag, n + (fields.map Var.tag).idxOf tag) ∈ readTags n fields := by
    refine List.mem_reverse.2 (List.mem_mapIdx.2 ⟨_, by simpa using hlt, ?_⟩)
    rw [List.getElem_map] at hfound
    rw [hfound]
  exact (tidy_readTags {} n hnodup).oneToOne.lookup (List.Subset.refl _) hmem
    (List.mem_map_of_mem hmem)

/-- Where there are tags for the reads, a packed map can be unpacked: its variables are read to new
ones, and these are put into its environment. -/
theorem exec_unpack {env : Env} (h : env.Formed) (x : Var) {w : World}
    (hroom : w.scope.tags.next + env.packed.length ≤ Tags.limit) :
    ∃ again s read s', (Rename.env env).run { envs := w.session.envs } = some (again, s) ∧
      (Rename.env env).run
        { envs := s.envs, tags := ⟨w.scope.tags.next + env.packed.length⟩,
          renamed := readTags w.scope.tags.next env.packed } = some (read, s') ∧
      exec (envVars env) w = (.ok env.packed, w.setEnvs s.envs) ∧
      exec (unpack x env) w = (.ok read,
        (w.emits (readsFrom x w.scope.trace 0 w.scope.tags.next env.packed)).setEnvs s'.envs) ∧
      env.Alpha (readTags w.scope.tags.next env.packed) read ∧
      ∀ y, (read.get? y).isSome = (env.get? y).isSome := by
  -- The variables of the type.
  obtain ⟨again, s, hrun⟩ := Rename.exists_run_env w.session.envs h
    (Nat.le_trans (Nat.le_add_left ..) hroom)
  have hvars : exec (envVars env) w = (.ok env.packed, w.setEnvs s.envs) := by
    have hrename : exec (rename (fun envs => { envs }) (Rename.env env)) w =
        (.ok (again, s), w.setEnvs s.envs) := by rw [exec_rename, hrun]
    rw [envVars, exec_bind_of_ok hrename, ← (Rename.packed_env h hrun).listed]
    rfl
  -- The reads.
  have hread : exec (readPacked x 0 env.packed) (w.setEnvs s.envs) = _ :=
    exec_readPacked x (fun _ hf => Env.not_isUnit_of_mem_packed hf) hroom
  -- The environment of the type, by the new variables.
  have htidy := tidy_readTags s.envs w.scope.tags.next env.nodup_packed
  obtain ⟨read, s', hrun', htags, halpha⟩ := Rename.run_env_known htidy h (fun v hv => by
    rw [Renaming.olds, olds_readTags]
    exact List.mem_reverse.2 (List.mem_map_of_mem hv)) hroom
  refine ⟨again, s, read, s', hrun, hrun', hvars, ?_, halpha,
    Rename.get?_isSome_of_alpha h.ascending hrun' halpha⟩
  have hscope : (w.setEnvs s.envs).scope = w.scope := rfl
  have hnext : ((w.setEnvs s.envs).emits
      (readsFrom x w.scope.trace 0 w.scope.tags.next env.packed)).scope.tags =
      ⟨w.scope.tags.next + env.packed.length⟩ := by
    rw [World.emits, length_readsFrom]
    rfl
  have hrename : exec (rename (fun envs =>
      { envs, tags := ⟨w.scope.tags.next + env.packed.length⟩,
        renamed := readTags w.scope.tags.next env.packed }) (Rename.env env))
      ((w.setEnvs s.envs).emits (readsFrom x w.scope.trace 0 w.scope.tags.next env.packed)) =
      (.ok (read, s'), ((w.setEnvs s.envs).emits
        (readsFrom x w.scope.trace 0 w.scope.tags.next env.packed)).setEnvs s'.envs) := by
    rw [exec_rename]
    dsimp only [World.emits, World.setEnvs]
    rw [hrun']
  rw [unpack, exec_bind_of_ok hvars, exec_bind_of_ok hread, exec_bind_of_ok (exec_getScope _)]
  simp only [hscope, hnext]
  rw [← readTags, exec_bind_of_ok hrename]
  dsimp only
  rw [exec_bind_of_ok (exec_modifyScope _ _), htags]
  refine Prod.ext rfl ?_
  simp only [World.emits, World.setEnvs, exec_pure, length_readsFrom]

/-- Where there are not enough tags for the reads, unpacking ends. -/
theorem exec_unpack_of_full {env : Env} (h : env.Formed) (x : Var) {w : World}
    (hroom : w.scope.tags.next ≤ Tags.limit)
    (hfull : Tags.limit < w.scope.tags.next + env.packed.length) :
    (exec (unpack x env) w).1 = .error .tagsExhausted := by
  have hdata : ∀ f ∈ env.packed, f.ty.isUnit = false := fun _ => Env.not_isUnit_of_mem_packed
  rw [unpack]
  cases hrun : (Rename.env env).run { envs := w.session.envs } with
  | none =>
    have hrename : exec (rename (fun envs => { envs }) (Rename.env env)) w =
        (.error .tagsExhausted, w) := by rw [exec_rename, hrun]
    rw [exec_bind_of_error (by rw [envVars, exec_bind_of_error hrename])]
  | some r =>
    obtain ⟨again, s⟩ := r
    have hrename : exec (rename (fun envs => { envs }) (Rename.env env)) w =
        (.ok (again, s), w.setEnvs s.envs) := by rw [exec_rename, hrun]
    have hvars : exec (envVars env) w = (.ok env.packed, w.setEnvs s.envs) := by
      rw [envVars, exec_bind_of_ok hrename, ← (Rename.packed_env h hrun).listed]
      rfl
    have hread := exec_readPacked_of_full x hdata (i := 0) (w := w.setEnvs s.envs) hroom hfull
    rw [exec_bind_of_ok hvars, exec_bind_of_error (Prod.ext hread rfl)]

end Eval

/-! ### Canonical environments -/

namespace Rename

variable {envs : EnvTable} {e e' : Env} {s : Renaming}

/-- The packed variables of a canonical environment are numbered. -/
lemma packed_run_env (h : e.Formed) (hrun : (env e).run { envs } = some (e', s)) :
    e'.packed.map Var.tag = List.range e.packed.length := by
  obtain ⟨-, hmarks, hdata⟩ := run_env_start h hrun
  obtain ⟨hafter, -⟩ := numbers_env e h _ _ _ [] hrun (Renaming.After.start envs)
  rw [List.nil_append] at hafter
  have hpacked : e'.packed = Var.firsts e'.vars := congrArg Var.firsts
    (List.filter_eq_self.2 fun v hv => by rw [hdata v hv]; rfl)
  have htags := congrArg (List.map Prod.fst)
    (Var.firsts_mark (Var.injOn_number _) hmarks.symm)
  rw [List.map_map, List.map_map] at htags
  have hparams := hafter.params_tag
  rw [hafter.params, List.map_map, hafter.next, Env.vars_solid e h] at hparams
  rw [Env.vars_solid e h] at htags
  rw [hpacked]
  exact htags.symm.trans hparams

/-- Other tags in a canonical environment are other tags in the environment it was made of. -/
lemma code_retag_run_env (h : e.Formed) (hrun : (env e).run { envs } = some (e', s))
    (n : Tag) : (e'.retag fun tag => n + tag).code =
      (e.solid.retag fun tag => n + (e.packed.map Var.tag).idxOf tag).code := by
  obtain ⟨hcode, hmarks, -⟩ := run_env_start h hrun
  rw [← Env.code_retag_id e'] at hcode
  refine (Env.code_retag_iff _ _ _ _).2 ⟨((Env.code_retag_iff _ _ _ _).1 hcode).1, ?_⟩
  have hnumber : Var.number e.solid.vars = fun tag => (e.packed.map Var.tag).idxOf tag := by
    rw [Env.vars_solid e h]
    rfl
  have hshift := congrArg (List.map fun p : Tag × Code => (n + p.1, p.2)) hmarks
  rw [List.map_map, List.map_map, hnumber] at hshift
  exact hshift

end Rename

namespace Eval

/-- Unpacking a canonical environment gives what it was made of, in the tags of the reads. -/
lemma code_unpack {e e' : Env} {envs : EnvTable} {s : Renaming} (h : e.Formed) (h' : e'.Formed)
    (hrun : (Rename.env e).run { envs } = some (e', s)) {n : Tag} {read : Env}
    (hread : e'.Alpha (readTags n e'.packed) read) :
    read.code = (e.solid.retag fun tag => n + (e.packed.map Var.tag).idxOf tag).code := by
  obtain ⟨-, -, hdata⟩ := Rename.run_env_start h hrun
  have htags := Rename.packed_run_env h hrun
  have hmem : ∀ v ∈ e'.vars, v.tag ∈ e'.packed.map Var.tag := fun v hv =>
    Var.mem_firsts.2 (List.mem_map_of_mem (List.mem_filter.2 ⟨hv, by rw [hdata v hv]; rfl⟩))
  have hknown : Var.Known (readTags n e'.packed) (fun tag => n + tag) e'.vars := by
    intro v hv _
    have hlt : v.tag < e.packed.length := List.mem_range.1 (htags ▸ hmem v hv)
    have hidx : (List.range e.packed.length).idxOf v.tag = v.tag := by
      have hlt' : v.tag < (List.range e.packed.length).length := by rwa [List.length_range]
      have h := List.nodup_range.idxOf_getElem v.tag hlt'
      rwa [List.getElem_range] at h
    rw [lookup_readTags n e'.nodup_packed (hmem v hv), htags, hidx]
  rw [Env.Alpha.code_eq e' h' hknown hread, Env.code_solid e' hdata,
    Rename.code_retag_run_env h hrun]

/-- Packing and unpacking are inverse. Packing an environment of values binds a packed tuple of its
different variables with run-time data, and the type of the result lists variables of their types.
Wherever a variable of that type is unpacked later, one read for each is emitted, in order, and the
map that comes out is of the same kind. Its environment is the one that was packed, with the `i`-th
packed variable replaced by what was read at index `i`, with other variables replaced by the values
of their types, and with all else as it was. No tag is drawn but those of the reads. -/
theorem unpack_pack (l : Layout) {env : Env} (kind : MapKind) (henv : env.Formed) {w : World}
    (htable : w.session.envs.Formed) (hfew : env.packed.length ≤ Tags.limit)
    (hroom : w.scope.tags.next < Tags.limit) :
    ∃ canonical table,
      exec (layoutOp (.pack l) [.map env kind]) w =
        (.ok (.var ⟨w.scope.tags.next, .layout l canonical kind⟩),
          (w.setEnvs table).emits [.letIn ⟨w.scope.tags.next, .layout l canonical kind⟩
            (.op (.layout (.pack l)) [.tuple (env.packed.map .var)] (.layout l canonical kind))
            w.scope.trace]) ∧
      (env.packed.map Var.tag).Nodup ∧
      ∀ (x : Tag) (v : World), v.scope.tags.next + env.packed.length ≤ Tags.limit →
        ∃ fields table₁ table₂ read,
          exec (envVars canonical) v = (.ok fields, v.setEnvs table₁) ∧
          fields.map (fun f => f.ty.code) = env.packed.map (fun f => f.ty.code) ∧
          exec (mapValue? (.var ⟨x, .layout l canonical kind⟩)) v = (.ok (some (read, kind)),
            (v.emits (readsFrom ⟨x, .layout l canonical kind⟩ v.scope.trace 0 v.scope.tags.next
              fields)).setEnvs table₂) ∧
          read.code = (env.solid.retag fun tag =>
            v.scope.tags.next + (env.packed.map Var.tag).idxOf tag).code := by
  obtain ⟨canonical, s, hrun, hpack⟩ := @exec_pack l _ kind henv _ hfew hroom
  have hcanonical : canonical.Formed :=
    (Rename.keeps_env env henv _ _ _ hrun
      ⟨htable, fun _ h => absurd h List.not_mem_nil, fun _ h => absurd h List.not_mem_nil,
        fun _ h => absurd h List.not_mem_nil⟩).2
  -- The packed values have the types of those that were captured, in the same order.
  have htys := (Rename.packed_env henv hrun).tys
  rw [(Rename.packed_env henv hrun).listed] at htys
  refine ⟨canonical, s.envs, hpack, env.nodup_packed, fun x v hv => ?_⟩
  have hlength : canonical.packed.length = env.packed.length := by
    simpa using congrArg List.length htys
  obtain ⟨-, s₁, read, s₂, -, -, hvars, hunpack, hread, -⟩ :=
    exec_unpack hcanonical ⟨x, .layout l canonical kind⟩ (hlength ▸ hv)
  refine ⟨canonical.packed, s₁.envs, s₂.envs, read, hvars, htys, ?_,
    code_unpack henv hcanonical hrun hread⟩
  rw [mapValue?, exec_bind_of_ok hunpack]
  rfl

namespace PackedPair

/-- A variable that occurs twice, one inside a tuple, and one without run-time data. -/
def env : Env :=
  .plain [(⟨1⟩, .var ⟨7, .prim (.int .i32)⟩), (⟨2⟩, .var ⟨4, .lit (.bool true)⟩),
    (⟨3⟩, .tuple [.var ⟨5, .prim .string⟩, .lit (.bool true), .var ⟨7, .prim (.int .i32)⟩])]

lemma env_formed : env.Formed :=
  ⟨by simp [Fields.Ascending], trivial, trivial, ⟨trivial, trivial, trivial, trivial⟩, trivial⟩

def world (next : Tag) : World := ⟨{}, { env := .empty, tags := ⟨next⟩ }⟩

end PackedPair

open PackedPair in
/-- The variable that occurs twice is packed and read once. -/
theorem unpack_pack_pair : ∃ canonical read table,
    (exec (layoutOp (.pack .heap) [.map env .module]) (world 9)).1 =
      .ok (.var ⟨9, .layout .heap canonical .module⟩) ∧
    exec (mapValue? (.var ⟨3, .layout .heap canonical .module⟩)) (world 20) =
      (.ok (some (read, .module)), table) ∧ table.scope.tags.next = 22 ∧
    read.code = (Env.plain [(⟨1⟩, .var ⟨20, .prim (.int .i32)⟩), (⟨2⟩, .type (.lit (.bool true))),
      (⟨3⟩, .tuple [.var ⟨21, .prim .string⟩, .lit (.bool true),
        .var ⟨20, .prim (.int .i32)⟩])]).code := by
  obtain ⟨canonical, table, hpack, -, hunpack⟩ :=
    unpack_pack .heap (w := world 9) .module env_formed
    (fun _ h => absurd h List.not_mem_nil) (by decide) (by decide)
  obtain ⟨fields, _, _, read, -, htys, hread, hcode⟩ := hunpack 3 (world 20) (by decide)
  refine ⟨canonical, read, _, by rw [hpack]; rfl, hread, ?_, hcode.trans (by decide)⟩
  have hlength : fields.length = env.packed.length := by simpa using congrArg List.length htys
  simp only [World.setEnvs, World.emits, length_readsFrom, hlength]
  rfl

end Eval

end Residual
