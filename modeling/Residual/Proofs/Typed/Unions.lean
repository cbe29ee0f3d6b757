import Mathlib.Data.List.Sort
import Residual.Proofs.Typed.Entered
import Residual.Proofs.Typed.Formed

/-!
Unions are sets of types.

A type is normal if it lists its members in one way only. A union of normal types is normal, and its
members are those of the types it was made of. A normal type is known, up to equality, by its
members, so unions have the laws of sets.

Types are compared by their codes here, as all their environments were entered in one table. Sorted
types ascend by code, equal neighbours have one code, and two strictly ascending lists with the same
codes in them are the same list of codes.
-/

namespace Residual

instance : Std.LawfulEqCmp Code.cmp where
  compare_self := Code.cmp_self _
  eq_of_compare h := Code.cmp_eq_eq.1 h

instance : Std.TransCmp Code.cmp where
  eq_swap {a b} := (Code.cmp_swap b a).symm
  isLE_trans := Code.cmp_isLE_trans

instance : Std.Irrefl fun c d : Code => Code.cmp c d = .lt := ⟨fun c h => by simp at h⟩

instance : Std.Antisymm fun c d : Code => Code.cmp c d = .lt :=
  ⟨fun _ _ h h' => absurd h' (Std.OrientedCmp.not_lt_of_lt h)⟩

namespace Ty

/-- The members ascend strictly. -/
def Ascend (ts : List Ty) : Prop := ts.Pairwise fun a b => a.cmp .symbol b = .lt

/-- A union of a single type is that type, and a type that is in a union is no union. -/
def Normal : Ty → Prop
  | .union members =>
    Ascend members ∧ (∀ m ∈ members, ∀ ms, m ≠ .union ms) ∧ members.length ≠ 1
  | _ => True

/-- A normal type whose environments were entered in `table`. -/
structure NormalIn (table : EnvTable) (t : Ty) : Prop where
  entered : t.Entered table
  normal : t.Normal

/-- `u` is one of the members of `t`, up to equality. A type that is no union is its own single
member. -/
def HasMember (t u : Ty) : Prop := ∃ m ∈ t.flatMembers, (m == u) = true

section Sorting

variable {table : EnvTable}

lemma Entered.flatMembers {t : Ty} (h : t.Entered table) :
    ∀ m ∈ t.flatMembers, m.Entered table := by
  cases t with
  | union members => exact allEntered_iff.1 h
  | _ => exact List.forall_mem_singleton.2 h

lemma ascend_iff {ts : List Ty} (hts : ∀ t ∈ ts, t.Entered table) :
    Ascend ts ↔ (ts.map code).Pairwise fun c d => Code.cmp c d = .lt := by
  rw [Ascend, List.pairwise_map]
  exact List.Pairwise.iff_of_mem fun ha hb => by rw [(hts _ ha).cmp_eq (hts _ hb)]

lemma insertLast_descends {t : Ty} (ht : t.Entered table) {us : List Ty}
    (hus : ∀ u ∈ us, u.Entered table) (h : us.Pairwise fun a b => (Code.cmp b.code a.code).isLE) :
    (insertLast t us).Pairwise fun a b => (Code.cmp b.code a.code).isLE := by
  induction us with
  | nil => exact List.pairwise_singleton ..
  | cons u rest ih =>
    obtain ⟨hu, hrest⟩ := List.forall_mem_cons.1 hus
    obtain ⟨hlast, hdesc⟩ := List.pairwise_cons.1 h
    rw [insertLast, ht.cmp_eq hu]
    split
    · rename_i hlt
      refine List.pairwise_cons.2 ⟨fun v hv => ?_, ih hrest hdesc⟩
      rcases mem_insertLast hv with rfl | hv
      · rw [hlt]
        rfl
      · exact hlast v hv
    · rename_i hlt
      have hle : (Code.cmp u.code t.code).isLE := by
        rw [← Std.OrientedCmp.isGE_iff_isLE, Ordering.isGE_iff_ne_lt]
        exact hlt
      refine List.pairwise_cons.2 ⟨fun v hv => ?_, h⟩
      rcases List.mem_cons.1 hv with rfl | hv
      · exact hle
      · exact Std.TransCmp.isLE_trans (hlast v hv) hle

lemma sort_ascends {ts : List Ty} (hts : ∀ t ∈ ts, t.Entered table) :
    (sort ts).Pairwise fun a b => (Code.cmp a.code b.code).isLE := by
  suffices ∀ us : List Ty, (∀ u ∈ us, u.Entered table) →
      us.Pairwise (fun a b => (Code.cmp b.code a.code).isLE) →
      (ts.foldl (fun sorted t => insertLast t sorted) us).Pairwise
        fun a b => (Code.cmp b.code a.code).isLE from
    List.pairwise_reverse.2 (this [] (fun _ h => absurd h List.not_mem_nil) .nil)
  induction ts with
  | nil => exact fun us _ h => h
  | cons t rest ih =>
    intro us hus h
    obtain ⟨ht, hrest⟩ := List.forall_mem_cons.1 hts
    refine ih hrest _ (fun u hu => ?_) (insertLast_descends ht hus h)
    rcases mem_insertLast hu with rfl | hu
    · exact ht
    · exact hus u hu

/-- Without repeated neighbours the ascent is strict. -/
lemma eraseReps_ascend {ts : List Ty} (hts : ∀ t ∈ ts, t.Entered table)
    (h : ts.Pairwise fun a b => (Code.cmp a.code b.code).isLE) : Ascend ts.eraseReps := by
  match ts with
  | [] => exact .nil
  | [a] => exact List.pairwise_singleton ..
  | a :: b :: rest =>
    obtain ⟨hleast, htail⟩ := List.pairwise_cons.1 h
    obtain ⟨ha, hothers⟩ := List.forall_mem_cons.1 hts
    obtain ⟨hb, hrest⟩ := List.forall_mem_cons.1 hothers
    rw [List.eraseReps_cons_cons]
    split
    · have hsub : (a :: rest).Sublist (a :: b :: rest) :=
        (List.sublist_cons_self b rest).cons_cons a
      exact eraseReps_ascend (fun t ht => hts t (hsub.mem ht)) (h.sublist hsub)
    · rename_i hne
      have hab : Code.cmp a.code b.code = .lt := by
        have hcode : Code.cmp a.code b.code ≠ .eq := fun heq =>
          hne ((ha.beq_iff hb).2 (Code.cmp_eq_eq.1 heq))
        have hle := hleast b (List.mem_cons_self ..)
        revert hcode hle
        cases Code.cmp a.code b.code <;> simp
      refine List.pairwise_cons.2 ⟨fun v hv => ?_, eraseReps_ascend hothers htail⟩
      have hv := mem_eraseReps hv
      rw [ha.cmp_eq (hothers v hv)]
      rcases List.mem_cons.1 hv with rfl | hv
      · exact hab
      · exact Std.TransCmp.lt_of_lt_of_isLE hab ((List.pairwise_cons.1 htail).1 v hv)
termination_by ts.length

/-- What ascends strictly is left as it is. -/
lemma sort_of_ascend {ts : List Ty} (hts : ∀ t ∈ ts, t.Entered table) (h : Ascend ts) :
    sort ts = ts := by
  suffices ∀ us : List Ty, (∀ u ∈ us, ∀ t ∈ ts, t.cmp .symbol u ≠ .lt) →
      ts.foldl (fun sorted t => insertLast t sorted) us = ts.reverse ++ us by
    rw [sort, this [] (fun _ h => absurd h List.not_mem_nil), List.append_nil, List.reverse_reverse]
  induction ts with
  | nil => exact fun us _ => rfl
  | cons t rest ih =>
    intro us hus
    obtain ⟨ht, hrest⟩ := List.forall_mem_cons.1 hts
    obtain ⟨hleast, htail⟩ := List.pairwise_cons.1 h
    have hfirst : insertLast t us = t :: us := by
      cases us with
      | nil => rfl
      | cons u us =>
        rw [insertLast, if_neg (hus u (List.mem_cons_self ..) t (List.mem_cons_self ..))]
    rw [List.foldl_cons, hfirst, ih hrest htail, List.reverse_cons, List.append_assoc,
      List.singleton_append]
    rintro u hu v hv
    rcases List.mem_cons.1 hu with rfl | hu
    · have hlt := hleast v hv
      rw [ht.cmp_eq (hrest v hv)] at hlt
      rw [(hrest v hv).cmp_eq ht]
      exact Std.OrientedCmp.not_lt_of_lt hlt
    · exact hus u hu v (List.mem_cons_of_mem _ hv)

lemma eraseReps_of_ascend {ts : List Ty} (hts : ∀ t ∈ ts, t.Entered table) (h : Ascend ts) :
    ts.eraseReps = ts := by
  induction ts with
  | nil => rfl
  | cons a rest ih =>
    obtain ⟨ha, hrest⟩ := List.forall_mem_cons.1 hts
    obtain ⟨hleast, htail⟩ := List.pairwise_cons.1 h
    cases rest with
    | nil => rfl
    | cons b rest =>
      have hne : ¬ (a == b) = true := fun heq => by
        have hlt := hleast b (List.mem_cons_self ..)
        have hb := hrest b (List.mem_cons_self ..)
        rw [ha.cmp_eq hb, (ha.beq_iff hb).1 heq, Code.cmp_self] at hlt
        cases hlt
      rw [List.eraseReps_cons_cons, if_neg hne, ih hrest htail]

end Sorting

/-! ### Normal types -/

section Members

variable {table : EnvTable}

lemma hasMember_iff {t u : Ty} (ht : t.Entered table) (hu : u.Entered table) :
    t.HasMember u ↔ u.code ∈ t.flatMembers.map code := by
  rw [List.mem_map]
  exact exists_congr fun m => and_congr_right fun hm => ((ht.flatMembers m hm).beq_iff hu)

lemma Normal.ascend {t : Ty} (h : t.Normal) : Ascend t.flatMembers := by
  cases t with
  | union members => exact h.1
  | _ => exact List.pairwise_singleton ..

lemma union_or_flat (t : Ty) : (∃ ms, t = .union ms) ∨ t.flatMembers = [t] ∧ t.rank ≠ 6 := by
  cases t with
  | union ms => exact .inl ⟨ms, rfl⟩
  | _ => exact .inr ⟨rfl, by simp [rank]⟩

lemma Normal.member_ne_union {t : Ty} (h : t.Normal) :
    ∀ m ∈ t.flatMembers, ∀ ms, m ≠ .union ms := by
  cases t with
  | union members => exact h.2.1
  | _ => exact List.forall_mem_singleton.2 fun ms => Ty.noConfusion

lemma unionOf_entered {ts : List Ty} (hts : ∀ t ∈ ts, t.Entered table) :
    ∀ u ∈ ts.flatMap flatMembers, u.Entered table := fun u hu => by
  obtain ⟨t, ht, hut⟩ := List.mem_flatMap.1 hu
  exact (hts t ht).flatMembers u hut

lemma entered_of_flatMembers {t : Ty} (h : ∀ m ∈ t.flatMembers, m.Entered table) :
    t.Entered table := by
  cases t with
  | union ms => exact allEntered_iff.2 h
  | _ => exact h _ (List.mem_singleton_self _)

/-- Making a union of normal types collects their members in order, each of them once. -/
lemma unionOf_collects {ts : List Ty} (hts : ∀ t ∈ ts, t.NormalIn table) :
    (unionOf ts).Normal ∧ (unionOf ts).flatMembers = (sort (ts.flatMap flatMembers)).eraseReps := by
  have hentered := unionOf_entered fun t ht => (hts t ht).entered
  have hasc : Ascend (sort (ts.flatMap flatMembers)).eraseReps :=
    eraseReps_ascend (fun u hu => hentered u (mem_sort hu)) (sort_ascends hentered)
  have hne : ∀ m ∈ (sort (ts.flatMap flatMembers)).eraseReps, ∀ ms, m ≠ .union ms := fun m hm => by
    obtain ⟨t, ht, hmt⟩ := List.mem_flatMap.1 (mem_sort (mem_eraseReps hm))
    exact (hts t ht).normal.member_ne_union m hmt
  rw [unionOf]
  generalize (sort (ts.flatMap flatMembers)).eraseReps = ms at hasc hne
  match ms with
  | [] => exact ⟨⟨hasc, hne, by simp⟩, rfl⟩
  | [t] =>
    have ht := hne t (List.mem_singleton_self t)
    cases t with
    | union ms => exact absurd rfl (ht ms)
    | _ => exact ⟨trivial, rfl⟩
  | t :: u :: rest => exact ⟨⟨hasc, hne, by simp⟩, rfl⟩

/-- The members of a union are those of the types it was made of. -/
lemma hasMember_unionOf {ts : List Ty} (hts : ∀ t ∈ ts, t.NormalIn table) {u : Ty}
    (hu : u.Entered table) : (unionOf ts).HasMember u ↔ ∃ t ∈ ts, t.HasMember u := by
  have hentered := unionOf_entered fun t ht => (hts t ht).entered
  rw [HasMember, (unionOf_collects hts).2]
  constructor
  · rintro ⟨m, hm, hmu⟩
    obtain ⟨t, ht, hmt⟩ := List.mem_flatMap.1 (mem_sort (mem_eraseReps hm))
    exact ⟨t, ht, m, hmt, hmu⟩
  · rintro ⟨t, ht, m, hmt, hmu⟩
    have hm := List.mem_flatMap.2 ⟨t, ht, hmt⟩
    obtain ⟨v, hv, hvm⟩ := List.exists_mem_eraseReps ((sort_perm _).mem_iff.2 hm)
    have hvent := hentered v (mem_sort (mem_eraseReps hv))
    have hcode := ((hvent.beq_iff (hentered m hm)).1 hvm).trans
      (((hentered m hm).beq_iff hu).1 hmu)
    exact ⟨v, hv, (hvent.beq_iff hu).2 hcode⟩

/-- Normal types are equal if they list the same members. -/
theorem Normal.code_eq_iff {a b : Ty} (ha : a.Normal) (hb : b.Normal) :
    a.code = b.code ↔ a.flatMembers.map code = b.flatMembers.map code := by
  have hrank : ∀ {s t : Ty}, s.code = t.code → s.rank = t.rank := fun {s t} h => by
    obtain ⟨c, hs⟩ := s.code_eq_cons
    obtain ⟨d, ht⟩ := t.code_eq_cons
    rw [hs, ht, List.cons.injEq] at h
    exact Int.ofNat_inj.1 h.1
  rcases a.union_or_flat with ⟨ms, rfl⟩ | ⟨hflat, hne⟩ <;>
    rcases b.union_or_flat with ⟨ns, rfl⟩ | ⟨hflat', hne'⟩
  · rw [code, code, List.cons.injEq, codeAll_eq_iff]
    exact ⟨fun h => h.2, fun h => ⟨rfl, h⟩⟩
  · refine ⟨fun h => absurd (hrank h).symm hne', fun h => absurd ?_ ha.2.2⟩
    rw [hflat'] at h
    simpa [flatMembers] using congrArg List.length h
  · refine ⟨fun h => absurd (hrank h) hne, fun h => absurd ?_ hb.2.2⟩
    rw [hflat] at h
    simpa [flatMembers] using (congrArg List.length h).symm
  · simp [hflat, hflat']

/-- Normal types with the same members are equal. -/
theorem NormalIn.beq_iff {a b : Ty} (ha : a.NormalIn table) (hb : b.NormalIn table) :
    (a == b) = true ↔ ∀ u, u.Entered table → (a.HasMember u ↔ b.HasMember u) := by
  rw [ha.entered.beq_iff hb.entered, ha.normal.code_eq_iff hb.normal]
  constructor
  · intro h u hu
    rw [hasMember_iff ha.entered hu, hasMember_iff hb.entered hu, h]
  · intro h
    have hasc := (ascend_iff ha.entered.flatMembers).1 ha.normal.ascend
    have hasc' := (ascend_iff hb.entered.flatMembers).1 hb.normal.ascend
    have hmem : ∀ m ∈ a.flatMembers ++ b.flatMembers,
        (m.code ∈ a.flatMembers.map code ↔ m.code ∈ b.flatMembers.map code) := fun m hm => by
      have hm : m.Entered table :=
        (List.mem_append.1 hm).elim (ha.entered.flatMembers m) (hb.entered.flatMembers m)
      rw [← hasMember_iff ha.entered hm, ← hasMember_iff hb.entered hm, h m hm]
    refine hasc.eq_of_mem_iff hasc' fun c => ⟨fun hc => ?_, fun hc => ?_⟩
    · obtain ⟨m, hm, rfl⟩ := List.mem_map.1 hc
      exact (hmem m (List.mem_append_left _ hm)).1 hc
    · obtain ⟨m, hm, rfl⟩ := List.mem_map.1 hc
      exact (hmem m (List.mem_append_right _ hm)).2 hc

/-- A union of one type is that type. -/
lemma unionOf_single {t : Ty} (ht : t.NormalIn table) : unionOf [t] = t := by
  have hsorted : (sort t.flatMembers).eraseReps = t.flatMembers := by
    rw [sort_of_ascend ht.entered.flatMembers ht.normal.ascend,
      eraseReps_of_ascend ht.entered.flatMembers ht.normal.ascend]
  rw [unionOf, List.flatMap_singleton, hsorted]
  rcases t.union_or_flat with ⟨ms, rfl⟩ | ⟨hflat, -⟩
  · match ms, ht.normal.2.2 with
    | [], _ => rfl
    | _ :: _ :: _, _ => rfl
  · rw [hflat]

lemma unionOf_normal {ts : List Ty} (hts : ∀ t ∈ ts, t.NormalIn table) :
    (unionOf ts).NormalIn table where
  entered := entered_of_flatMembers fun m hm => by
    rw [(unionOf_collects hts).2] at hm
    exact unionOf_entered (fun t ht => (hts t ht).entered) m (mem_sort (mem_eraseReps hm))
  normal := (unionOf_collects hts).1

/-- Unions are equal if the same types are members of the types they are made of. -/
lemma unionOf_beq_of_members {ts us : List Ty} (hts : ∀ t ∈ ts, t.NormalIn table)
    (hus : ∀ t ∈ us, t.NormalIn table)
    (h : ∀ u, (∃ t ∈ ts, t.HasMember u) ↔ ∃ t ∈ us, t.HasMember u) :
    (unionOf ts == unionOf us) = true :=
  ((unionOf_normal hts).beq_iff (unionOf_normal hus)).2 fun u hu => by
    rw [hasMember_unionOf hts hu, hasMember_unionOf hus hu, h]

end Members

/-- The union of normal types is the normal type whose members are theirs. So it does not matter how
a union is put together, and a normal type stands for the set of its members. -/
theorem unionOf_is_set (table : EnvTable) :
    (∀ ts : List Ty, (∀ t ∈ ts, t.NormalIn table) → (unionOf ts).NormalIn table ∧
      ∀ u, u.Entered table → ((unionOf ts).HasMember u ↔ ∃ t ∈ ts, t.HasMember u)) ∧
    ∀ a b c : Ty, a.NormalIn table → b.NormalIn table → c.NormalIn table →
      (unionOf [a, b] == unionOf [b, a]) = true ∧
      (unionOf [unionOf [a, b], c] == unionOf [a, unionOf [b, c]]) = true ∧
      (unionOf [a, a] == a) = true ∧
      unionOf [a] = a ∧
      ((a == b) = true ↔ ∀ u, u.Entered table → (a.HasMember u ↔ b.HasMember u)) := by
  refine ⟨fun ts hts => ⟨unionOf_normal hts, fun u hu => hasMember_unionOf hts hu⟩,
    fun a b c ha hb hc => ?_⟩
  have hpair : ∀ {s t : Ty}, s.NormalIn table → t.NormalIn table →
      ∀ r ∈ [s, t], r.NormalIn table := fun hs ht =>
    List.forall_mem_cons.2 ⟨hs, List.forall_mem_singleton.2 ht⟩
  have hab := unionOf_normal (hpair ha hb)
  have hbc := unionOf_normal (hpair hb hc)
  refine ⟨?comm, ?assoc, ?idem, unionOf_single ha, ha.beq_iff hb⟩
  case comm =>
    exact unionOf_beq_of_members (hpair ha hb) (hpair hb ha) fun u => by simp [or_comm]
  case assoc =>
    refine ((unionOf_normal (hpair hab hc)).beq_iff (unionOf_normal (hpair ha hbc))).2
      fun u hu => ?_
    rw [hasMember_unionOf (hpair hab hc) hu, hasMember_unionOf (hpair ha hbc) hu]
    simp [hasMember_unionOf (hpair ha hb) hu, hasMember_unionOf (hpair hb hc) hu, or_assoc]
  case idem =>
    refine ((unionOf_normal (hpair ha ha)).beq_iff ha).2 fun u hu => ?_
    simp [hasMember_unionOf (hpair ha ha) hu]

/-- A union inside a union is taken apart, and of two packed maps that hold one environment in two
forms one is kept. -/
theorem unionOf_is_set_nested :
    let seen : Name × Term := (⟨0⟩, .lit (.bool true))
    let table : EnvTable := ⟨[[seen]]⟩
    let entered : Ty := .layout .heap (.consed 0 [seen]) .module
    let plain : Ty := .layout .heap (.plain [seen]) .module
    let inner := unionOf [entered, .bool]
    inner = .union [.bool, entered] ∧ inner.NormalIn table ∧ plain.NormalIn table ∧
      entered ≠ plain ∧ (entered == plain) = true ∧
      (unionOf [plain, inner] == inner) = true ∧
      (unionOf [unionOf [plain, inner], .bool] == unionOf [plain, unionOf [inner, .bool]]) =
        true := by
  intro seen table entered plain inner
  have hentered : entered.NormalIn table := ⟨⟨rfl, fun _ => trivial, trivial⟩, trivial⟩
  have hplain : plain.NormalIn table := ⟨⟨fun _ => trivial, trivial⟩, trivial⟩
  have hbool : Ty.bool.NormalIn table := ⟨trivial, trivial⟩
  obtain ⟨hunion, hlaws⟩ := unionOf_is_set table
  obtain ⟨hinner, hmember⟩ := hunion [entered, .bool]
    (List.forall_mem_cons.2 ⟨hentered, List.forall_mem_singleton.2 hbool⟩)
  obtain ⟨houter, hmember'⟩ := hunion [plain, inner]
    (List.forall_mem_cons.2 ⟨hplain, List.forall_mem_singleton.2 hinner⟩)
  have hsame : ∀ u, u.Entered table → (entered.HasMember u ↔ plain.HasMember u) := fun u hu => by
    rw [hasMember_iff hentered.entered hu, hasMember_iff hplain.entered hu]
    exact Iff.rfl
  refine ⟨by rfl, hinner, hplain, by simp [entered, plain],
    (hlaws entered plain plain hentered hplain hplain).2.2.2.2.2 hsame, ?_,
    (hlaws plain inner .bool hplain hinner hbool).2.1⟩
  -- The packed map that is added is a member of the union already.
  refine (hlaws _ inner inner houter hinner hinner).2.2.2.2.2 fun u hu => ?_
  rw [hmember' u hu]
  simp only [List.mem_cons, List.not_mem_nil, or_false, exists_eq_or_imp, exists_eq_left,
    or_iff_right_iff_imp]
  exact fun h => (hmember u hu).2 ⟨entered, List.mem_cons_self .., (hsame u hu).2 h⟩

end Ty

end Residual
