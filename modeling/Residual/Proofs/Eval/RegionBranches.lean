import Residual.Proofs.Eval.RegionValues

/-!
The branches of a split are regions of their own.

A branch sees what is in scope where it starts, and its statements are closed around its value. So
its body is scoped there, and binds tags that were free when the branch started: branches that are
run one after the other, some of them twice, bind different tags.
-/

namespace Residual

namespace Term

lemma Formed.tail_eq {t : Term} (h : t.Formed) : t.tail = t := by
  cases t with
  | letIn _ _ _ _ | state _ _ _ | call _ _ _ _ => exact h.elim
  | _ => rfl

/-- A value that is a miss has no result. -/
lemma Sound.ty_of_miss {g : Ground} {held : Bool} {t : Term} (hformed : t.Formed)
    (h : t.Sound g held) (hmiss : t.endsInMiss = true) : t.ty = .unit := by
  unfold endsInMiss at hmiss
  rw [hformed.tail_eq] at hmiss
  cases t with
  | op o args ty => exact h.2
  | _ => cases hmiss

end Term

namespace Region

open Eval

variable {i : Region} {w w' : World} {vars : List Var}

/-! ### One branch -/

/-- The region of a branch that starts at `w` with variables of its own. -/
def branch (i : Region) (w : World) (vars : List Var) : Region :=
  ⟨i.asks, i.scope w ++ vars, w.scope.tags.next⟩

/-- Variables that can be brought into scope at `w`. -/
structure Fresh (i : Region) (w : World) (vars : List Var) : Prop where
  shape : ∀ v ∈ vars, i.Shape w v.ty
  oneType : i.asks.tracked → Var.OneType vars
  below : i.asks.tracked → ∀ v ∈ vars, v.tag < w.scope.tags.next
  new : i.asks.tracked → ∀ u ∈ i.scope w, ∀ v ∈ vars, u.tag ≠ v.tag

lemma fresh_nil : i.Fresh w [] :=
  ⟨fun _ h => absurd h List.not_mem_nil, fun _ _ h => absurd h List.not_mem_nil,
    fun _ _ h => absurd h List.not_mem_nil, fun _ _ _ _ h => absurd h List.not_mem_nil⟩

lemma Fresh.mono (h : i.Fresh w vars) (hw : w.Framed w')
    (hstmts : w'.scope.stmts = w.scope.stmts) : i.Fresh w' vars := by
  refine ⟨fun v hv => (h.shape v hv).mono hw, h.oneType, fun htracked v hv => ?_, ?_⟩
  · exact Nat.lt_of_lt_of_le (h.below htracked v hv) hw.tags
  · rw [scope_eq i hstmts]
    exact h.new

lemma le_enterBranch (i : Region) (w : World) (vars : List Var) :
    Le i w (i.branch w vars) w.enterBranch := by
  refine ⟨rfl, .refl _, ?_⟩
  change i.scope w ⊆ (i.scope w ++ vars) ++ []
  rw [List.append_nil]
  exact List.subset_append_left ..

/-- The variables of a branch are values in it. -/
theorem value_enterBranch {v : Var} (hv : v ∈ vars) (hty : i.Shape w v.ty) :
    (i.branch w vars).Value w.enterBranch (.var v) :=
  value_var (hty.le (le_enterBranch i w vars)) fun _ =>
    .of_mem (List.mem_append_left _ (List.mem_append_right _ hv))

lemma Ready.enterBranch (hw : i.Ready w) (hvars : i.Fresh w vars) :
    (i.branch w vars).Ready w.enterBranch := by
  have hle := le_enterBranch i w vars
  refine ⟨hw.session, hw.sound, hw.env.le hle, fun e he => (hw.sharing e he).le hle,
    fun s hs => absurd hs List.not_mem_nil, fun htracked => ?_⟩
  have hlaid := hw.laid htracked
  refine ⟨hlaid.oneType_scope.append (hvars.oneType htracked) (hvars.new htracked),
    List.forall_mem_append.2 ⟨fun v hv => hlaid.tag_lt hv, hvars.below htracked⟩,
    Nat.le_refl _, trivial, List.nodup_nil, fun tag htag => absurd htag List.not_mem_nil,
    fun s hs => absurd hs List.not_mem_nil⟩

lemma Ready.leaveBranch (hw : i.Ready w) (hw' : (i.branch w vars).Ready w')
    (hframed : w.enterBranch.Framed w') : i.Ready (w.leaveBranch w') := by
  have hleave := hframed.leaveBranch
  have hsharing := hframed.sharing_leaveBranch
  refine ⟨hw'.session, hw'.sound, hw.env.mono hleave, ?_, fun s hs => ?_,
    fun htracked => (hw.laid htracked).of_stmts rfl hleave.tags⟩
  · rw [hsharing]
    exact fun e he => (hw.sharing e he).mono hleave
  · exact (hw.fits s hs).imp fun ty hty => hty.mono (le_of_framed i hleave).ground

/-- The body of a branch with variables of its own. -/
structure Branch (i : Region) (w : World) (vars : List Var) (t : Term) : Prop where
  ty : i.Shape w t.ty
  fits : ∀ n ∈ t.nodes, n.Fits i.asks.typed (Ty.Sound (i.ground w))
  inScope : i.asks.tracked → t.Scoped (i.scope w ++ vars)
  renamable : i.asks.tracked → t.Renamable

lemma Branch.mono {t : Term} (h : i.Branch w vars t) (hw : w.Framed w')
    (hstmts : w'.scope.stmts = w.scope.stmts) : i.Branch w' vars t := by
  refine ⟨h.ty.mono hw, fun n hn => (h.fits n hn).imp fun ty hty =>
    hty.mono (le_of_framed i hw).ground, ?_, h.renamable⟩
  rw [scope_eq i hstmts]
  exact h.inScope

/-- The tags that a body binds were free before, and are told apart. -/
structure Binds (w w' : World) (t : Term) : Prop where
  nodup : t.bound.Nodup
  range : ∀ tag ∈ t.bound, w.scope.tags.next ≤ tag ∧ tag < w'.scope.tags.next

lemma does_inBranch {m : Eval Term} (hvars : i.Fresh w vars)
    (h : (i.branch w vars).Does w.enterBranch m fun t w' => (i.branch w vars).Value w' t) :
    i.Does w (inBranch m) fun t w' => w'.scope.stmts = w.scope.stmts ∧ i.Branch w' vars t ∧
      (t.endsInMiss = true → t.ty = .unit) ∧ (i.asks.tracked → Binds w w' t) := by
  intro hw
  obtain ⟨hready, hframed, hvalue⟩ := h (hw.enterBranch hvars)
  rw [exec_inBranch]
  rcases hrun : exec m w.enterBranch with ⟨r, w'⟩
  rw [hrun] at hready hframed hvalue
  refine ⟨hw.leaveBranch hready hframed, hframed.leaveBranch, fun t ht => ?_⟩
  cases r with
  | error s => cases ht
  | ok v =>
    cases ht
    have hv := hvalue v rfl
    have hcode := hv.code hready
    refine ⟨rfl, ⟨?_, Stmt.fits_close hready.fits hcode.fits, fun htracked => ?_,
      fun htracked => ?_⟩, fun hmiss => ?_, fun htracked => ?_⟩
    · rw [Stmt.ty_close]
      exact ⟨hv.ty.formed, hv.ty.sound⟩
    · exact (Stmt.scoped_close _ _).2 ⟨(hready.laid htracked).stmts, hcode.inScope htracked⟩
    · exact Stmt.renamable_close (hready.laid htracked).renamable hv.formed.renamable
    · rw [Term.endsInMiss, Stmt.tail_close] at hmiss
      rw [Stmt.ty_close]
      exact hv.sound.ty_of_miss hv.formed hmiss
    · have hbound : (Stmt.close w'.scope.stmts v).bound = bound w' := by
        rw [Stmt.bound_close, hv.formed.bound_eq, List.append_nil]
        rfl
      exact ⟨hbound ▸ (hready.laid htracked).nodup, hbound ▸ (hready.laid htracked).range⟩

lemma does_attempt {α : Type} {m : Eval α} {P : α → World → Prop} (h : i.Does w m P) :
    i.Does w (attempt m) fun r w' => ∀ a, r = .ok a → P a w' := by
  intro hw
  obtain ⟨hready, hframed, hP⟩ := h hw
  rw [exec_attempt]
  rcases hrun : exec m w with ⟨(fault | _ | _) | a, w'⟩ <;> rw [hrun] at hready hframed hP
  · refine ⟨hready, hframed, fun r hr a ha => ?_⟩
    cases hr
    cases ha
  · exact ⟨hready, hframed, fun r hr => by cases hr⟩
  · exact ⟨hready, hframed, fun r hr => by cases hr⟩
  · refine ⟨hready, hframed, fun r hr b hb => ?_⟩
    cases hr
    cases hb
    exact hP a rfl

/-- A branch is run, whatever its outcome. -/
lemma does_attempt_inBranch {m : Eval Term} (hvars : i.Fresh w vars)
    (h : (i.branch w vars).Does w.enterBranch m fun t w' => (i.branch w vars).Value w' t) :
    i.Does w (attempt (inBranch m)) fun r w' => w'.scope.stmts = w.scope.stmts ∧
      ∀ t, r = .ok t → i.Branch w' vars t ∧ (t.endsInMiss = true → t.ty = .unit) ∧
        (i.asks.tracked → Binds w w' t) := by
  refine (does_attempt (does_inBranch hvars h)).ran.imp fun r w' _ hr => ⟨?_, fun t ht => ?_⟩
  · have hstmts := stmts_attempt_inBranch m w
    rwa [hr.2] at hstmts
  · exact (hr.1 t ht).2

/-- A join point that a fault waits for is in evaluation; if it is a type, it is known. -/
theorem does_pendingRecursion (fault : Fault) :
    i.Does w (pendingRecursion fault) fun r w' => w' = w ∧
      ∀ p ∈ r, p.kind = .type → i.asks.known p.key := by
  have hnone : i.Does w (pure none : Eval (Option Point)) fun r w' => w' = w ∧
      ∀ p ∈ r, p.kind = .type → i.asks.known p.key :=
    .pure fun _ => ⟨rfl, fun p hp => by cases hp⟩
  unfold pendingRecursion
  cases fault.pending with
  | none => exact hnone
  | some p =>
    refine .getScope ?_
    split
    · exact hnone
    · refine .getSession ?_
      split
      · rename_i trace hfind
        refine .pure fun hw => ⟨rfl, fun q hq hkind => ?_⟩
        cases hq
        exact hw.sound.pending _ (Discipline.mem_of_find? hfind) hkind rfl
      · exact hnone

/-! ### All branches -/

/-- The tags that the bodies bind. -/
def boundBy (bodies : List (Option Term)) : List Tag := (bodies.filterMap id).flatMap Term.bound

/-- One body for each branch, or none yet. The tags that they bind start at `lo`. -/
structure Bodies {α : Type} (i : Region) (w : World) (vars : α → List Var) (lo : Tag)
    (l : List α) (bodies : List (Option Term)) : Prop where
  length : bodies.length = l.length
  branch : ∀ e ∈ l.zip bodies, ∀ t ∈ e.2, i.Branch w (vars e.1) t
  nodup : i.asks.tracked → (boundBy bodies).Nodup
  range : i.asks.tracked → ∀ tag ∈ boundBy bodies, lo ≤ tag ∧ tag < w.scope.tags.next

/-- A body that ends in a miss has no result. -/
def Misses (bodies : List (Option Term)) : Prop :=
  ∀ t, some t ∈ bodies → t.endsInMiss = true → t.ty = .unit

namespace Bodies

variable {α : Type} {vars : α → List Var} {lo : Tag} {l : List α} {bodies : List (Option Term)}

lemma nil : i.Bodies w vars lo [] [] :=
  ⟨rfl, fun _ h => absurd h List.not_mem_nil, fun _ => List.nodup_nil,
    fun _ _ h => absurd h List.not_mem_nil⟩

lemma mono (h : i.Bodies w vars lo l bodies) (hw : w.Framed w')
    (hstmts : w'.scope.stmts = w.scope.stmts) : i.Bodies w' vars lo l bodies :=
  ⟨h.length, fun e he t ht => (h.branch e he t ht).mono hw hstmts, h.nodup,
    fun htracked tag htag => ⟨(h.range htracked tag htag).1,
      Nat.lt_of_lt_of_le (h.range htracked tag htag).2 hw.tags⟩⟩

/-- Each body is that of one of the branches. -/
theorem exists_branch (h : i.Bodies w vars lo l bodies) {t : Term} (ht : some t ∈ bodies) :
    ∃ a, (a, some t) ∈ l.zip bodies ∧ i.Branch w (vars a) t := by
  obtain ⟨k, hk, heq⟩ := List.getElem_of_mem ht
  have hl : k < l.length := h.length ▸ hk
  have hmem : (l[k], some t) ∈ l.zip bodies := by
    rw [← heq, ← List.getElem_zip (h := by rw [List.length_zip]; omega)]
    exact List.getElem_mem _
  exact ⟨l[k], hmem, h.branch _ hmem t rfl⟩

lemma lower {lo' : Tag} (h : i.Bodies w vars lo l bodies) (hlo : lo' ≤ lo) :
    i.Bodies w vars lo' l bodies :=
  ⟨h.length, h.branch, h.nodup, fun htracked tag htag =>
    ⟨Nat.le_trans hlo (h.range htracked tag htag).1, (h.range htracked tag htag).2⟩⟩

lemma cons_none (h : i.Bodies w vars lo l bodies) (a : α) :
    i.Bodies w vars lo (a :: l) (none :: bodies) := by
  refine ⟨congrArg (· + 1) h.length, ?_, h.nodup, h.range⟩
  rw [List.zip_cons_cons]
  exact List.forall_mem_cons.2 ⟨fun t ht => (by cases ht), h.branch⟩

lemma cons_some (h : i.Bodies w vars lo l bodies) {a : α} {t : Term}
    (ht : i.Branch w (vars a) t) (hnodup : i.asks.tracked → (t.bound ++ boundBy bodies).Nodup)
    (hrange : i.asks.tracked → ∀ tag ∈ t.bound, lo ≤ tag ∧ tag < w.scope.tags.next) :
    i.Bodies w vars lo (a :: l) (some t :: bodies) := by
  refine ⟨congrArg (· + 1) h.length, ?_, hnodup, fun htracked =>
    List.forall_mem_append.2 ⟨hrange htracked, h.range htracked⟩⟩
  rw [List.zip_cons_cons]
  exact List.forall_mem_cons.2 ⟨fun u hu => (by cases hu; exact ht), h.branch⟩

lemma tail {a : α} {b : Option Term} (h : i.Bodies w vars lo (a :: l) (b :: bodies)) :
    i.Bodies w vars lo l bodies := by
  have hsub : (boundBy bodies).Sublist (boundBy (b :: bodies)) := by
    cases b with
    | none => exact .refl _
    | some t => exact List.sublist_append_right ..
  exact ⟨Nat.succ.inj h.length, fun e he => h.branch e (List.mem_cons_of_mem _ he),
    fun htracked => (h.nodup htracked).sublist hsub,
    fun htracked tag htag => h.range htracked tag (hsub.subset htag)⟩

end Bodies

section Runs

variable {α : Type} {vars : α → List Var} {l : List α} {g : α → Eval Term}

/-- Each of the branches can be run from `w` on, as long as no statement is added. -/
def Runnable (i : Region) (w : World) (vars : α → List Var) (g : α → Eval Term) (l : List α) :
    Prop :=
  ∀ a ∈ l, i.Fresh w (vars a) ∧ ∀ w', w.Framed w' → w'.scope.stmts = w.scope.stmts →
    (i.branch w' (vars a)).Does w'.enterBranch (g a)
      fun t w'' => (i.branch w' (vars a)).Value w'' t

lemma Runnable.mono (h : i.Runnable w vars g l) (hw : w.Framed w')
    (hstmts : w'.scope.stmts = w.scope.stmts) : i.Runnable w' vars g l := by
  intro a ha
  obtain ⟨hfresh, hdoes⟩ := h a ha
  exact ⟨hfresh.mono hw hstmts, fun w'' hw'' hstmts'' =>
    hdoes w'' (hw.trans hw'') (hstmts''.trans hstmts)⟩

lemma Runnable.attempt {a : α} (h : i.Runnable w vars g l) (ha : a ∈ l) :
    i.Does w (Eval.attempt (inBranch (g a))) fun r w' => w'.scope.stmts = w.scope.stmts ∧
      ∀ t, r = .ok t → i.Branch w' (vars a) t ∧ (t.endsInMiss = true → t.ty = .unit) ∧
        (i.asks.tracked → Binds w w' t) :=
  does_attempt_inBranch (h a ha).1 ((h a ha).2 w (.refl w) rfl)

/-- What a first run of the branches finds. -/
structure FirstRun (i : Region) (w w' : World) (vars : α → List Var) (l : List α)
    (r : List (Option Term) × Option (Fault × Point)) : Prop where
  stmts : w'.scope.stmts = w.scope.stmts
  bodies : i.Bodies w' vars w.scope.tags.next l r.1
  misses : Misses r.1
  all : r.2 = none → ∀ b ∈ r.1, b.isSome = true
  pending : ∀ f p, r.2 = some (f, p) → p.kind = .type → i.asks.known p.key

lemma does_firstRun (hg : i.Runnable w vars g l) :
    i.Does w (firstRun (l.map g)) fun r w' => i.FirstRun w w' vars l r := by
  induction l generalizing w with
  | nil =>
    exact .pure fun _ => ⟨rfl, .nil, fun _ h => absurd h List.not_mem_nil,
      fun _ _ h => absurd h List.not_mem_nil, fun _ _ h => by cases h⟩
  | cons a l ih =>
    have hrest : ∀ w', w.Framed w' → w'.scope.stmts = w.scope.stmts →
        i.Does w' (firstRun (l.map g)) fun r w'' => i.FirstRun w' w'' vars l r :=
      fun w' hw' hstmts => ih fun a ha => hg.mono hw' hstmts a (List.mem_cons_of_mem _ ha)
    refine (hg.attempt (List.mem_cons_self ..)).bind fun r w₁ hw₁ hr => ?_
    obtain ⟨hstmts, hr⟩ := hr
    cases r with
    | ok body =>
      obtain ⟨hbranch, hmiss, hbinds⟩ := hr body rfl
      refine (hrest w₁ hw₁ hstmts).bind fun rest w₂ hw₂ hrest => .pure fun _ => ?_
      have hbodies := hrest.bodies.lower hw₁.tags
      refine ⟨hrest.stmts.trans hstmts, hbodies.cons_some (hbranch.mono hw₂ hrest.stmts)
        (fun htracked => ?_) fun htracked tag htag => ?_, ?_, fun hnone => ?_, hrest.pending⟩
      · -- The tags of the later branches are above those of this one.
        refine List.nodup_append.2 ⟨(hbinds htracked).nodup, hbodies.nodup htracked,
          fun a ha b hb heq => ?_⟩
        have hlt := Nat.lt_of_lt_of_le ((hbinds htracked).range a ha).2
          (hrest.bodies.range htracked b hb).1
        exact Nat.ne_of_lt hlt heq
      · obtain ⟨hlo, hhi⟩ := (hbinds htracked).range tag htag
        exact ⟨hlo, Nat.lt_of_lt_of_le hhi hw₂.tags⟩
      · intro t ht
        rcases List.mem_cons.1 ht with heq | ht
        · cases heq
          exact hmiss
        · exact hrest.misses t ht
      · exact List.forall_mem_cons.2 ⟨rfl, hrest.all hnone⟩
    | error fault =>
      refine (does_pendingRecursion fault).bind fun r w₂ hw₂ hr => ?_
      obtain ⟨rfl, hknown⟩ := hr
      cases r with
      | none => exact .throw _
      | some p =>
        refine (hrest w₂ hw₁ hstmts).bind fun rest w₃ hw₃ hrest => .pure fun _ => ?_
        have hbodies := hrest.bodies.lower hw₁.tags
        refine ⟨hrest.stmts.trans hstmts, hbodies.cons_none a, fun t ht => ?_,
          fun hnone => (by cases hnone), fun f q hq => ?_⟩
        · rcases List.mem_cons.1 ht with heq | ht
          · cases heq
          · exact hrest.misses t ht
        · cases hq
          exact hknown p rfl

/-- What a second run of the branches makes of the bodies that are there. -/
structure SecondRun (i : Region) (w w' : World) (vars : α → List Var) (lo : Tag) (l : List α)
    (old : List (Option Term)) (ts : List Term) : Prop where
  bodies : i.Bodies w' vars lo l (ts.map some)
  misses : Misses (ts.map some)
  new : i.asks.tracked → ∀ tag ∈ boundBy (ts.map some),
    tag ∈ boundBy old ∨ w.scope.tags.next ≤ tag

/-- One more body, that was there or is new. -/
theorem SecondRun.cons {w₁ : World} {lo : Tag} {bodies : List (Option Term)} {ts : List Term}
    (h : i.SecondRun w₁ w' vars lo l bodies ts) {a : α} {b : Option Term} {t : Term}
    (hw : w.Framed w₁) (ht : i.Branch w' (vars a) t) (hmiss : t.endsInMiss = true → t.ty = .unit)
    (hbounds : i.asks.tracked → t.bound.Nodup ∧
      (∀ tag ∈ t.bound, lo ≤ tag ∧ tag < w₁.scope.tags.next) ∧
      (∀ tag ∈ t.bound, tag ∈ boundBy (b :: bodies) ∨ w.scope.tags.next ≤ tag) ∧
      ∀ tag ∈ t.bound, tag ∉ boundBy bodies) (htags : w₁.scope.tags.next ≤ w'.scope.tags.next) :
    i.SecondRun w w' vars lo (a :: l) (b :: bodies) (t :: ts) := by
  have hsub : boundBy bodies ⊆ boundBy (b :: bodies) := by
    cases b with
    | none => exact List.Subset.refl _
    | some t => exact List.subset_append_right ..
  refine ⟨h.bodies.cons_some ht (fun htracked => ?_) fun htracked tag htag => ?_, ?_,
    fun htracked => List.forall_mem_append.2 ⟨(hbounds htracked).2.2.1, fun tag htag => ?_⟩⟩
  · obtain ⟨hnodup, hrange, -, hnew⟩ := hbounds htracked
    refine List.nodup_append.2 ⟨hnodup, h.bodies.nodup htracked, fun x hx y hy heq => ?_⟩
    rcases h.new htracked y hy with hold | hle
    · exact hnew x hx (heq ▸ hold)
    · exact Nat.ne_of_lt (Nat.lt_of_lt_of_le (hrange x hx).2 hle) heq
  · obtain ⟨hlo, hlt⟩ := (hbounds htracked).2.1 tag htag
    exact ⟨hlo, Nat.lt_of_lt_of_le hlt htags⟩
  · intro u hu
    rcases List.mem_cons.1 hu with heq | hu
    · cases heq
      exact hmiss
    · exact h.misses u hu
  · rcases h.new htracked tag htag with hold | hle
    · exact .inl (hsub hold)
    · exact .inr (Nat.le_trans hw.tags hle)

lemma does_secondRun {lo : Tag} {bodies : List (Option Term)} (hg : i.Runnable w vars g l)
    (hb : i.Bodies w vars lo l bodies) (hm : Misses bodies) (hlo : lo ≤ w.scope.tags.next) :
    i.Does w (secondRun bodies (l.map g)) fun r w' =>
      ∀ ts, r = .ok ts → i.SecondRun w w' vars lo l bodies ts := by
  induction l generalizing w bodies with
  | nil =>
    have hnil : bodies = [] := List.length_eq_zero_iff.1 hb.length
    subst hnil
    refine .pure fun _ ts hts => ?_
    cases hts
    exact ⟨.nil, fun _ h => absurd h List.not_mem_nil, fun _ _ h => absurd h List.not_mem_nil⟩
  | cons a l ih =>
    have hrest : ∀ w', w.Framed w' → w'.scope.stmts = w.scope.stmts →
        i.Runnable w' vars g l :=
      fun w' hw' hstmts a ha => hg.mono hw' hstmts a (List.mem_cons_of_mem _ ha)
    match bodies with
    | [] => cases hb.length
    | some body :: bodies =>
      have hmiss : Misses bodies := fun t ht => hm t (List.mem_cons_of_mem _ ht)
      refine (ih (hrest w (.refl w) rfl) hb.tail hmiss hlo).ran.bind fun r w₁ hw₁ hr => ?_
      obtain ⟨hr, hrun⟩ := hr
      have hstmts : w₁.scope.stmts = w.scope.stmts := by
        have h := stmts_secondRun bodies (l.map g) w
        rwa [hrun] at h
      cases r with
      | error fault => exact .pure fun _ ts hts => by cases hts
      | ok rest =>
        refine .pure fun _ ts hts => ?_
        cases hts
        have hbody := (hb.branch (a, some body) (List.mem_cons_self ..) body rfl).mono hw₁ hstmts
        refine (hr rest rfl).cons (.refl w) hbody (hm body (List.mem_cons_self ..))
          (fun htracked => ?_) hw₁.tags
        obtain ⟨hnodup, -, hdisjoint⟩ := List.nodup_append.1 (hb.nodup htracked)
        refine ⟨hnodup, fun tag htag => hb.range htracked tag (List.mem_append_left _ htag),
          fun tag htag => .inl (List.mem_append_left _ htag), fun tag htag hold => ?_⟩
        exact hdisjoint tag htag tag hold rfl
    | none :: bodies =>
      have hmiss : Misses bodies := fun t ht => hm t (List.mem_cons_of_mem _ ht)
      refine (hg.attempt (List.mem_cons_self ..)).bind fun r w₁ hw₁ hr => ?_
      obtain ⟨hstmts₁, hr⟩ := hr
      cases r with
      | error fault => exact .pure fun _ ts hts => by cases hts
      | ok body =>
        obtain ⟨hbranch, hbodymiss, hbinds⟩ := hr body rfl
        refine (ih (hrest w₁ hw₁ hstmts₁) (hb.tail.mono hw₁ hstmts₁) hmiss
          (Nat.le_trans hlo hw₁.tags)).ran.bind fun r w₂ hw₂ hr => ?_
        obtain ⟨hr, hrun⟩ := hr
        have hstmts₂ : w₂.scope.stmts = w₁.scope.stmts := by
          have h := stmts_secondRun bodies (l.map g) w₁
          rwa [hrun] at h
        cases r with
        | error fault => exact .pure fun _ ts hts => by cases hts
        | ok rest =>
          refine .pure fun _ ts hts => ?_
          cases hts
          refine (hr rest rfl).cons hw₁ (hbranch.mono hw₂ hstmts₂) hbodymiss (fun htracked => ?_)
            hw₂.tags
          obtain ⟨hnodup, hrange⟩ := hbinds htracked
          refine ⟨hnodup, fun tag htag => ⟨Nat.le_trans hlo (hrange tag htag).1,
            (hrange tag htag).2⟩, fun tag htag => .inr (hrange tag htag).1, fun tag htag hold => ?_⟩
          -- What was bound before the run is below what it binds.
          exact Nat.lt_irrefl tag (Nat.lt_of_lt_of_le (hb.tail.range htracked tag hold).2
            (hrange tag htag).1)

/-! ### Second tries -/

/-- A type is guessed for a join point in evaluation. -/
theorem Ready.setPending (hw : i.Ready w) {p : Point} (hp : p.kind = .type → i.asks.known p.key)
    {ty : Option Ty} (hty : ∀ t ∈ ty, i.Shape w t) :
    i.Ready (w.setPending p ty) ∧ w.Framed (w.setPending p ty) := by
  refine ⟨hw.setSession (.refl _)
    (World.setPending_formed hw.formed p ty fun t ht => (hty t ht).formed).session
    ⟨hw.sound.envs, fun e he => ?_, fun e he => ?_, hw.sound.recTypes⟩,
    .of_scope ⟨⟨.refl _, .refl _, .refl _⟩, rfl⟩ rfl rfl⟩
  · obtain ⟨⟨q, entry⟩, hq, rfl⟩ := List.mem_map.1 he
    dsimp only
    split
    · cases ty with
      | none => trivial
      | some ty => exact (hty ty rfl).sound
    · exact hw.sound.points _ hq
  · obtain ⟨⟨q, entry⟩, hq, rfl⟩ := List.mem_map.1 he
    dsimp only
    split
    · rename_i heq
      subst heq
      exact fun hkind _ => hp hkind
    · exact hw.sound.pending _ hq

/-- What was done under a guess is forgotten. -/
theorem Ready.forgetSince (hw : i.Ready w) (mark : Nat) :
    i.Ready { w with session := w.session.forgetSince mark } := by
  have hpoints : ∀ e ∈ (w.session.forgetSince mark).points, e ∈ w.session.points :=
    fun e he => (PointTable.sublist_foldl_erase _ _).subset he
  refine hw.setSession (.refl _) (Session.forgetSince_formed hw.session mark)
    ⟨hw.sound.envs, fun e he => hw.sound.points e (hpoints e he),
      fun e he => hw.sound.pending e (hpoints e he), fun e he => ?_⟩
  exact hw.sound.recTypes e (List.mem_filter.1 he).1

lemma does_retry {lo : Tag} {bodies : List (Option Term)} (hg : i.Runnable w vars g l)
    (hb : i.Bodies w vars lo l bodies) (hm : Misses bodies) (hlo : lo ≤ w.scope.tags.next)
    (fault : Fault) {p : Point} (hp : p.kind = .type → i.asks.known p.key) {ty : Ty}
    (hty : i.Shape w ty) :
    i.Does w
      (do
        setPendingType p (some ty)
        let mark := (← getSession).finished.length
        match ← secondRun bodies (l.map g) with
        | .ok bodies => return bodies
        | .error _ =>
          modifySession (·.forgetSince mark)
          setPendingType p none
          throw (.failed fault))
      fun ts w' => w'.scope.stmts = w.scope.stmts ∧ i.Bodies w' vars lo l (ts.map some) ∧
        Misses (ts.map some) := by
  refine .given fun hw => ?_
  have hguess : ∀ t ∈ some ty, i.Shape w t := fun t ht => by cases ht; exact hty
  obtain ⟨hready, hframed⟩ := hw.setPending hp hguess
  obtain ⟨hready', hframed', hres⟩ :=
    does_secondRun (hg.mono hframed rfl) (hb.mono hframed rfl) hm hlo hready
  have hstmts := stmts_secondRun bodies (l.map g) (w.setPending p (some ty))
  have hexec := exec_retry bodies (l.map g) fault p ty w
  rcases hrun : exec (secondRun bodies (l.map g)) (w.setPending p (some ty)) with
    ⟨s | (f | ts), w₂⟩ <;> rw [hrun] at hready' hframed' hres hstmts hexec
  · -- A limit of the evaluator was reached.
    exact .of_outcome hexec hready' (hframed.trans hframed') fun a ha => by cases ha
  · -- The guess was wrong: what was done under it is forgotten.
    have hle := hframed.trans hframed'
    refine .of_outcome hexec ((hready'.forgetSince w.session.finished.length).setPending hp
      fun t ht => by cases ht).1 ?_ fun a ha => by cases ha
    exact ⟨hle.later.of_tables ⟨rfl, rfl, rfl⟩ ⟨rfl, rfl, rfl⟩ hle.later.owner, hle.settings,
      hle.env, hle.trace, hle.dynamicDepth, hle.tags, hle.stmts, hle.sharing⟩
  · -- All bodies are there.
    refine .of_outcome hexec hready' (hframed.trans hframed') fun a ha => ?_
    cases ha
    exact ⟨hstmts, (hres (.ok ts) rfl ts rfl).bodies, (hres (.ok ts) rfl ts rfl).misses⟩

lemma map_some_filterMap {bodies : List (Option Term)} (h : ∀ b ∈ bodies, b.isSome = true) :
    (bodies.filterMap id).map some = bodies := by
  induction bodies with
  | nil => rfl
  | cons b rest ih =>
    obtain ⟨hb, hrest⟩ := List.forall_mem_cons.1 h
    obtain ⟨t, rfl⟩ := Option.isSome_iff_exists.1 hb
    exact congrArg (some t :: ·) (ih hrest)

lemma does_branches (hg : i.Runnable w vars g l) :
    i.Does w (branches (l.map g)) fun ts w' => w'.scope.stmts = w.scope.stmts ∧
      i.Bodies w' vars w.scope.tags.next l (ts.map some) ∧ Misses (ts.map some) := by
  refine (does_firstRun hg).bind fun r w₁ hw₁ hr => ?_
  obtain ⟨bodies, recursed⟩ := r
  cases recursed with
  | none =>
    refine .pure fun _ => ⟨hr.stmts, ?_⟩
    rw [map_some_filterMap (hr.all rfl)]
    exact ⟨hr.bodies, hr.misses⟩
  | some r =>
    obtain ⟨fault, p⟩ := r
    dsimp only
    cases hty : firstType? (bodies.filterMap id) with
    | none => exact .throw _
    | some ty =>
      have hshape : i.Shape w₁ ty := by
        obtain ⟨body, hbody, rfl⟩ := Option.map_eq_some_iff.1 hty
        obtain ⟨b, hb, rfl⟩ := List.mem_filterMap.1 (List.mem_of_find?_eq_some hbody)
        obtain ⟨a, -, hbranch⟩ := hr.bodies.exists_branch hb
        exact hbranch.ty
      refine (does_retry (hg.mono hw₁ hr.stmts) hr.bodies hr.misses hw₁.tags fault
        (hr.pending fault p rfl) hshape).imp fun ts w₂ hw₂ hts =>
          ⟨hts.1.trans hr.stmts, hts.2⟩

/-! ### One split -/

lemma boundBy_map_some (ts : List Term) : boundBy (ts.map some) = ts.flatMap Term.bound := by
  rw [boundBy, List.filterMap_map, Function.id_comp, List.filterMap_some]

/-- The bodies are changed, but not what they bind. -/
theorem Bodies.change {lo : Tag} {ts : List Term} (h : i.Bodies w vars lo l (ts.map some))
    {f : Term → Term} (hbound : ∀ t, (f t).bound = t.bound)
    (hf : ∀ a t, i.Branch w (vars a) t → i.Branch w (vars a) (f t)) :
    i.Bodies w vars lo l ((ts.map f).map some) := by
  have hsame : boundBy ((ts.map f).map some) = boundBy (ts.map some) := by
    rw [boundBy_map_some, boundBy_map_some, List.flatMap_map]
    exact congrArg (fun g => ts.flatMap g) (funext hbound)
  have hmap : (ts.map f).map some = (ts.map some).map (Option.map f) := by
    rw [List.map_map, List.map_map]
    rfl
  refine ⟨?_, ?_, ?_, ?_⟩
  · rw [hmap, List.length_map]
    exact h.length
  · rw [hmap, List.zip_map_right]
    refine List.forall_mem_map.2 fun e he t ht => ?_
    obtain ⟨u, hu, rfl⟩ := Option.map_eq_some_iff.1 ht
    exact hf e.1 u (h.branch e he u hu)
  · rw [hsame]
    exact h.nodup
  · rw [hsame]
    exact h.range

lemma Branch.retypeMiss {ty : Ty} (hty : i.Shape w ty) {vars : List Var} {t : Term}
    (h : i.Branch w vars t) :
    i.Branch w vars (if t.endsInMiss then t.retypeMiss ty else t) := by
  split
  · rename_i hmiss
    refine ⟨?_, Term.fits_retypeMiss hty.sound h.fits, fun htracked =>
      Term.scoped_retypeMiss (h.inScope htracked), fun htracked =>
        (h.renamable htracked).retypeMiss⟩
    rw [Term.ty_retypeMiss ty hmiss]
    exact hty
  · exact h

lemma does_merge (op : Op) {lo : Tag} {ts : List Term} (h : i.Bodies w vars lo l (ts.map some))
    (hm : Misses (ts.map some)) :
    i.Does w (merge op ts) fun r w' => w' = w ∧ i.Bodies w vars lo l (r.1.map some) ∧
      i.Shape w (r.2.getD .unit) ∧ ∀ t ∈ r.1, t.ty.code = (r.2.getD .unit).code := by
  have hbranch : ∀ t ∈ ts, ∃ a, i.Branch w (vars a) t := fun t ht =>
    (h.exists_branch (List.mem_map_of_mem ht)).imp fun _ ha => ha.2
  unfold merge
  split
  · -- All bodies end in a miss, which has no result.
    rename_i hnone
    refine .pure fun _ => ⟨rfl, h, shape_unit, fun t ht => ?_⟩
    have hmiss : t.endsInMiss = true := by
      have hfind := List.find?_eq_none.1 (Option.map_eq_none_iff.1 hnone) t ht
      simpa using hfind
    exact congrArg Ty.code (hm t (List.mem_map_of_mem ht) hmiss)
  · rename_i ty hty
    have hshape : i.Shape w ty := by
      obtain ⟨body, hbody, rfl⟩ := Option.map_eq_some_iff.1 hty
      obtain ⟨a, ha⟩ := hbranch body (List.mem_of_find?_eq_some hbody)
      exact ha.ty
    split
    · exact .fail _
    · -- The misses take the type of the others and bind what they did.
      rename_i hagree
      refine .pure fun _ => ⟨rfl, ?_, hshape, ?_⟩
      · refine h.change (fun t => ?_) fun a t ht => ht.retypeMiss hshape
        split
        · exact Term.bound_retypeMiss ty t
        · rfl
      · refine List.forall_mem_map.2 fun t ht => ?_
        split
        · rename_i hmiss
          rw [Term.ty_retypeMiss ty hmiss]
          rfl
        · rename_i hmiss
          obtain ⟨a, ha⟩ := hbranch t ht
          have hbeq : (t.ty == ty) = true := by
            have hfind := List.find?_eq_none.1 hagree t ht
            simpa [hmiss] using hfind
          exact ha.ty.sound.code_of_beq hshape.sound hbeq

/-- The code of a split is emitted, at the type of its bodies. -/
theorem does_finishSplit (op : Op) {arrange : List Term → List Term} {lo : Tag} {ts : List Term}
    (h : i.Bodies w vars lo l (ts.map some)) (hm : Misses (ts.map some))
    (hcode : ∀ bodies ty, i.Bodies w vars lo l (bodies.map some) → i.Shape w ty →
      (∀ t ∈ bodies, t.ty.code = ty.code) → i.Code w (.op op (arrange bodies) ty)) :
    i.Does w (finishSplit op arrange ts) fun v w' => i.Value w' v := by
  refine (does_merge op h hm).bind fun r w' _ hr => ?_
  obtain ⟨bodies, ty⟩ := r
  obtain ⟨rfl, hbodies, hty, htys⟩ := hr
  cases ty with
  | some ty =>
    exact (does_bindResult (hcode bodies ty hbodies hty htys)).imp fun _ _ _ hv => hv.1
  | none =>
    exact (does_state (hcode bodies .unit hbodies hty htys) rfl).bind fun _ _ _ _ =>
      .pure fun _ => value_miss (value_tuple fun t ht => absurd ht List.not_mem_nil)

end Runs

end Region

end Residual
