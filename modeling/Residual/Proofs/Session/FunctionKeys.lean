import Mathlib.Data.List.Nodup
import Residual.Proofs.Session.Programs

/-!
Functions and their keys.

Join points of all kinds take their keys from one table, and a key says nothing of the kind. So
a function is known by its kind and key together. Main statement: the functions of a program
differ in one of the two, and the key of a call leads to the function that it calls exactly if
no function of another kind was done first under this key.
-/

namespace Residual

open Eval

lemma Point.eq_of_kind_of_key {p q : Point} (hkind : p.kind = q.kind) (hkey : p.key = q.key) :
    p = q := by
  cases p
  cases q
  simp_all

namespace Program

/-- A function of another kind was done under the key of `q`, before `q` itself. -/
def Shadowed (p : Program) (q : Point) : Prop :=
  ∃ before f after, p.functions = before ++ f :: after ∧ f.point = q ∧
    ∃ g ∈ before, g.point.key = q.key ∧ g.point.kind ≠ q.kind

/-- The key of the call leads to the function that it calls. -/
def Finds (p : Program) (c : Point × Ty) : Prop :=
  ∃ f, p.function? c.1.key = some f ∧ f.point = c.1 ∧ f.body.ty == c.2

instance (p : Program) (c : Point × Ty) : Decidable (p.Finds c) :=
  decidable_of_iff (∃ f ∈ p.function? c.1.key, f.point = c.1 ∧ f.body.ty == c.2) <| by
    simp [Finds]

/-- No two functions have one key. -/
def KeysApart (p : Program) : Prop := (p.functions.map fun f => f.point.key).Nodup

instance (p : Program) : Decidable p.KeysApart :=
  inferInstanceAs (Decidable (p.functions.map fun f => f.point.key).Nodup)

variable {p : Program}

lemma eq_of_point_eq (hp : (p.functions.map FunctionDef.point).Nodup) {f g : FunctionDef}
    (hf : f ∈ p.functions) (hg : g ∈ p.functions) (h : f.point = g.point) : f = g :=
  List.inj_on_of_nodup_map hp hf hg h

/-- A function that stands before another one has another kind or another key. -/
lemma point_ne_of_before (hp : (p.functions.map FunctionDef.point).Nodup)
    {before after : List FunctionDef} {f g : FunctionDef}
    (hsplit : p.functions = before ++ f :: after) (hg : g ∈ before) : g.point ≠ f.point := by
  rw [hsplit, List.map_append, List.nodup_append] at hp
  exact hp.2.2 _ (List.mem_map_of_mem hg) _ (List.mem_map_of_mem (List.mem_cons_self ..))

lemma key_ne_of_function? (hp : (p.functions.map FunctionDef.point).Nodup) {key : Key}
    {before after : List FunctionDef} {f g : FunctionDef} (h : p.function? key = some f)
    (hsplit : p.functions = before ++ f :: after) (hg : g ∈ before) : g.point.key ≠ key := by
  intro hkey
  unfold function? at h
  rw [hsplit, List.find?_append] at h
  cases hfirst : before.find? fun f => f.point.key == key with
  | none => exact List.find?_eq_none.1 hfirst g hg (by simp [hkey])
  | some f' =>
    rw [hfirst] at h
    cases h
    exact point_ne_of_before hp hsplit (List.mem_of_find?_eq_some hfirst) rfl

lemma function?_eq_some {key : Key} {before after : List FunctionDef} {f : FunctionDef}
    (hsplit : p.functions = before ++ f :: after) (hkey : f.point.key = key)
    (hbefore : ∀ g ∈ before, g.point.key ≠ key) : p.function? key = some f := by
  unfold function?
  rw [List.find?_eq_some_iff_append]
  exact ⟨by simp [hkey], before, after, hsplit, fun g hg => by simp [hbefore g hg]⟩

lemma finds_iff (hp : (p.functions.map FunctionDef.point).Nodup) {c : Point × Ty}
    (hc : p.Resolves c) : p.Finds c ↔ ¬ p.Shadowed c.1 := by
  constructor
  · rintro ⟨f, hf, hpoint, -⟩ ⟨before, f', after, hsplit, hpoint', g, hg, hkey, -⟩
    obtain rfl : f' = f := by
      refine eq_of_point_eq hp (by simp [hsplit]) ?_ (hpoint'.trans hpoint.symm)
      exact List.mem_of_find?_eq_some hf
    exact key_ne_of_function? hp hf hsplit hg hkey
  · intro hshadowed
    obtain ⟨f, hf, hpoint, hty⟩ := hc
    obtain ⟨before, after, hsplit⟩ := List.append_of_mem hf
    refine ⟨f, function?_eq_some hsplit (congrArg Point.key hpoint) fun g hg hkey => ?_,
      hpoint, hty⟩
    refine hshadowed ⟨before, f, after, hsplit, hpoint, g, hg, hkey, fun hkind => ?_⟩
    exact point_ne_of_before hp hsplit hg ((Point.eq_of_kind_of_key hkind hkey).trans hpoint.symm)

/-- Keys tell the functions apart exactly if none is used for two kinds. -/
lemma keysApart_iff (hp : (p.functions.map FunctionDef.point).Nodup) :
    p.KeysApart ↔ ∀ f ∈ p.functions, ∀ g ∈ p.functions, f.point.key = g.point.key →
      f.point.kind = g.point.kind := by
  constructor
  · intro h f hf g hg hkey
    rw [List.inj_on_of_nodup_map h hf hg hkey]
  · intro h
    have hkeys : ∀ f ∈ p.functions, ∀ g ∈ p.functions, f.point.key = g.point.key → f = g :=
      fun f hf g hg hkey =>
        eq_of_point_eq hp hf hg (Point.eq_of_kind_of_key (h f hf g hg hkey) hkey)
    exact (List.Nodup.of_map _ hp).map_on hkeys

lemma KeysApart.not_shadowed (h : p.KeysApart) (q : Point) : ¬ p.Shadowed q := by
  rintro ⟨before, f, after, hsplit, rfl, g, hg, hkey, -⟩
  unfold KeysApart at h
  rw [hsplit, List.map_append, List.nodup_append] at h
  exact h.2.2 _ (List.mem_map_of_mem hg) _ (List.mem_map_of_mem (List.mem_cons_self ..)) hkey

end Program

namespace Session

/-- The functions are listed in the order in which their join points were done. -/
lemma points_functions (s : Session) :
    List.Sublist (s.functions.map FunctionDef.point) s.finished := by
  unfold functions
  induction s.finished with
  | nil => exact .slnil
  | cons p rest ih =>
    by_cases hkind : p.kind = .type
    · rw [List.filterMap_cons_none (by simp [hkind])]
      exact ih.cons p
    · cases hbody : s.body? p with
      | none =>
        rw [List.filterMap_cons_none (by simp [hbody])]
        exact ih.cons p
      | some body =>
        rw [List.filterMap_cons_some (b := ⟨p, body⟩) (by simp [hkind, hbody])]
        exact ih.cons_cons p

end Session

/-- No two functions of a program have one kind and one key. The key of a call in the main code,
or of any call whose function is there, leads to this function exactly if no function of another
kind was done before it under the key. No two functions have one key exactly if no key is used
for two kinds, and then every such call is led to its function. -/
theorem call_finds_iff (settings : Settings) (calls : List Call)
    (hcalls : ∀ c ∈ calls, c.Formed) (c : Call) (hc : c.Formed) (p : Program)
    (hp : (c.run (Session.after { settings } calls)).1 = .ok p) :
    (p.functions.map FunctionDef.point).Nodup ∧
      (∀ call ∈ p.main.calls, p.Resolves call) ∧
      (∀ call, p.Resolves call → (p.Finds call ↔ ¬ p.Shadowed call.1)) ∧
      (p.KeysApart ↔ ∀ f ∈ p.functions, ∀ g ∈ p.functions, f.point.key = g.point.key →
        f.point.kind = g.point.kind) ∧
      (p.KeysApart → ∀ call, p.Resolves call → p.Finds call) := by
  have hready : (Session.after { settings } calls).Ready :=
    (Session.Ready.new settings).after hcalls
  obtain ⟨value, w, hrun, rfl⟩ := Call.program_of_run hp
  obtain ⟨-, hgood, -, hvalue⟩ :=
    Discipline.does_eval c.fuel (fun _ => hc.filtered.1) (hc.good hready)
  rw [hrun] at hgood hvalue
  have hlinked : w.Linked [] := hgood.1
  have hpoints : (w.session.functions.map FunctionDef.point).Nodup :=
    w.session.points_functions.nodup hlinked.inStack.table.finished
  refine ⟨hpoints, fun call hcall => ?_, fun call hcall => Program.finds_iff hpoints hcall,
    Program.keysApart_iff hpoints, fun hkeys call hcall => ?_⟩
  · exact hlinked.resolves_main rfl (hvalue value rfl trivial) hcall
  · exact (Program.finds_iff hpoints hcall).2 (hkeys.not_shadowed call.1)

/-! ### One key for two kinds

A method and a kernel without captures are specialized for one piece of code. -/

namespace TwoKinds

def program : Build Expr := do
  let unit ← Build.tuple []
  let method ← Build.joinMethod unit
  let kernel ← Build.joinKernel unit
  Build.tuple [method, kernel]

lemma does_program : Build.Does True program (Build.Fine True) := by
  have hempty : Build.Does True (Build.tuple []) (Build.Fine True) :=
    Build.does_tuple fun _ => trivial
  refine hempty.bind fun unit hunit => ?_
  refine (Build.does_op₁ hunit).bind fun method hmethod => ?_
  refine (Build.does_op₁ hunit).bind fun kernel hkernel => ?_
  exact Build.does_tuple fun h => ⟨hmethod h, hkernel h, trivial⟩

def call : Call := .of program {} 10

lemma formed_call : call.Formed :=
  Call.formed_of does_program (Session.formed_new {}).store 10

lemma run_call : ∃ p, (call.run {}).1 = .ok p ∧ ¬ p.KeysApart ∧
    ∃ c ∈ p.main.calls, ¬ p.Finds c :=
  Call.exists_of_run (by decide +kernel)

end TwoKinds

/-- Two functions of a program have one key, and the key of a call in its main code leads to
another function than it calls. -/
theorem exists_key_of_two_functions : ∃ (c : Call) (p : Program), c.Formed ∧
    (c.run {}).1 = .ok p ∧ ¬ p.KeysApart ∧ ∃ call ∈ p.main.calls, ¬ p.Finds call := by
  obtain ⟨p, hp, hkeys⟩ := TwoKinds.run_call
  exact ⟨TwoKinds.call, p, TwoKinds.formed_call, hp, hkeys⟩

/-- A function of another kind was done before it. -/
theorem exists_shadowed_function : ∃ p, (TwoKinds.call.run {}).1 = .ok p ∧
    ∃ call ∈ p.main.calls, p.Shadowed call.1 := by
  obtain ⟨p, hp, -, call, hcall, hfinds⟩ := TwoKinds.run_call
  obtain ⟨-, hresolves, hiff, -⟩ := call_finds_iff {} [] (fun _ h => absurd h List.not_mem_nil)
    TwoKinds.call TwoKinds.formed_call p hp
  refine ⟨p, hp, call, hcall, Classical.not_not.1 fun hshadowed => hfinds ?_⟩
  exact (hiff call (hresolves call hcall)).2 hshadowed

end Residual
