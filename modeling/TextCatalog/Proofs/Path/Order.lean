import Mathlib.Data.List.Basic
import TextCatalog.Path.Basic

/-!
# Paths in order

The order of paths is a linear order of their components. So the paths of a list, in order and each
once, depend only on which paths the list has.
-/

namespace TextCatalog.Path

namespace Component

theorem le_total (a b : Component) : (a.le b || b.le a) = true := by
  cases a <;> cases b <;> simp [le, List.le_total]

theorem le_trans {a b c : Component} (hab : a.le b = true) (hbc : b.le c = true) : a.le c = true := by
  cases a with
  | name m =>
    cases b with
    | name n =>
      cases c with
      | name k =>
        simp only [le, decide_eq_true_eq] at hab hbc ⊢
        exact List.le_trans hab hbc
      | root | current | parent => simp [le] at hbc
    | root | current | parent => simp [le] at hab
  | root | current | parent => cases b <;> cases c <;> simp_all [le]

theorem le_antisymm {a b : Component} (hab : a.le b = true) (hba : b.le a = true) : a = b := by
  cases a with
  | name m =>
    cases b with
    | name n =>
      simp only [le, decide_eq_true_eq] at hab hba
      rw [List.le_antisymm hab hba]
    | root | current | parent => simp [le] at hab
  | root | current | parent => cases b <;> simp_all [le]

end Component

section Components

theorem leComponents_total (as bs : List Component) :
    (leComponents as bs || leComponents bs as) = true := by
  induction as generalizing bs with
  | nil => simp [leComponents]
  | cons a as ih =>
    cases bs with
    | nil => simp [leComponents]
    | cons b bs =>
      by_cases hab : a = b
      · simpa [leComponents, hab] using ih bs
      · simpa [leComponents, hab, Ne.symm hab] using Component.le_total a b

theorem leComponents_trans {as bs cs : List Component} (hab : leComponents as bs = true)
    (hbc : leComponents bs cs = true) : leComponents as cs = true := by
  induction as generalizing bs cs with
  | nil => simp [leComponents]
  | cons a as ih =>
    cases bs with
    | nil => simp [leComponents] at hab
    | cons b bs =>
      cases cs with
      | nil => simp [leComponents] at hbc
      | cons c cs =>
        rw [leComponents] at hab hbc ⊢
        by_cases hab' : a = b
        · subst hab'
          by_cases hac : a = c
          · rw [if_pos rfl] at hab
            rw [if_pos hac] at hbc ⊢
            exact ih hab hbc
          · rw [if_neg hac] at hbc ⊢
            exact hbc
        · rw [if_neg hab'] at hab
          by_cases hbc' : b = c
          · subst hbc'
            rw [if_neg hab']
            exact hab
          · rw [if_neg hbc'] at hbc
            have hac : a ≠ c := fun heq => hab' (Component.le_antisymm hab (heq ▸ hbc))
            rw [if_neg hac]
            exact Component.le_trans hab hbc

theorem leComponents_antisymm {as bs : List Component} (hab : leComponents as bs = true)
    (hba : leComponents bs as = true) : as = bs := by
  induction as generalizing bs with
  | nil =>
    cases bs with
    | nil => rfl
    | cons b bs => simp [leComponents] at hba
  | cons a as ih =>
    cases bs with
    | nil => simp [leComponents] at hab
    | cons b bs =>
      rw [leComponents] at hab hba
      by_cases heq : a = b
      · subst heq
        rw [if_pos rfl] at hab hba
        rw [ih hab hba]
      · rw [if_neg heq] at hab
        rw [if_neg (Ne.symm heq)] at hba
        exact absurd (Component.le_antisymm hab hba) heq

end Components

section Distinct

variable {ps qs : List Path}

theorem pairwise_mergeSort_le (ps : List Path) :
    (ps.mergeSort le).Pairwise fun p q => le p q = true :=
  @List.pairwise_mergeSort _ le (fun _ _ _ hpq hqr => leComponents_trans hpq hqr)
    (fun p q => leComponents_total p.components q.components) ps

theorem dropRepeats_sublist (ps : List Path) : (dropRepeats ps).Sublist ps := by
  fun_induction dropRepeats ps with
  | case1 => exact .slnil
  | case2 => exact .refl _
  | case3 first second ps _ ih => exact ih.trans ((List.sublist_cons_self second ps).cons_cons first)
  | case4 first second ps _ ih => exact ih.cons_cons first

theorem mem_dropRepeats (hinj : ∀ p ∈ ps, ∀ q ∈ ps, p.components = q.components → p = q) {p : Path} :
    p ∈ dropRepeats ps ↔ p ∈ ps := by
  fun_induction dropRepeats ps with
  | case1 => rfl
  | case2 => rfl
  | case3 first second ps heq ih =>
    have hsame : first = second := hinj first (by simp) second (by simp) heq
    rw [ih fun p hp q hq => hinj p (by simp at hp ⊢; tauto) q (by simp at hq ⊢; tauto), hsame]
    simp
  | case4 first second ps hne ih =>
    rw [List.mem_cons, List.mem_cons,
      ih fun p hp q hq => hinj p (List.mem_cons_of_mem _ hp) q (List.mem_cons_of_mem _ hq)]

theorem pairwise_dropRepeats (h : ps.Pairwise fun p q => le p q = true) :
    (dropRepeats ps).Pairwise fun p q => le p q = true ∧ p.components ≠ q.components := by
  fun_induction dropRepeats ps with
  | case1 => exact .nil
  | case2 => exact List.pairwise_singleton _ _
  | case3 first second ps _ ih =>
    obtain ⟨hfirst, hrest⟩ := List.pairwise_cons.1 h
    obtain ⟨-, hps⟩ := List.pairwise_cons.1 hrest
    exact ih (List.pairwise_cons.2 ⟨fun p hp => hfirst p (List.mem_cons_of_mem _ hp), hps⟩)
  | case4 first second ps hne ih =>
    obtain ⟨hfirst, hrest⟩ := List.pairwise_cons.1 h
    obtain ⟨hsecond, -⟩ := List.pairwise_cons.1 hrest
    refine List.pairwise_cons.2 ⟨fun p hp => ?_, ih hrest⟩
    have hp := (dropRepeats_sublist _).subset hp
    refine ⟨hfirst p hp, fun heq => hne ?_⟩
    have hback : le second p = true := by
      rcases List.mem_cons.1 hp with rfl | hp
      · exact (Bool.or_self _).symm.trans (leComponents_total p.components p.components)
      · exact hsecond p hp
    rw [le, ← heq] at hback
    exact leComponents_antisymm (hfirst second (by simp)) hback

theorem pairwise_distinct (ps : List Path) :
    (distinct ps).Pairwise fun p q => le p q = true ∧ p.components ≠ q.components :=
  pairwise_dropRepeats (pairwise_mergeSort_le ps)

/-- Paths that are in order and each there once stay as they are. -/
theorem distinct_eq_self (h : ps.Pairwise fun p q => le p q = true ∧ p.components ≠ q.components) :
    distinct ps = ps := by
  have hkept : ∀ qs : List Path, qs.Pairwise (fun p q => p.components ≠ q.components) →
      dropRepeats qs = qs := by
    intro qs hqs
    fun_induction dropRepeats qs with
    | case1 => rfl
    | case2 => rfl
    | case3 first second qs heq => exact absurd heq ((List.pairwise_cons.1 hqs).1 second (by simp))
    | case4 first second qs _ ih => rw [ih (List.pairwise_cons.1 hqs).2]
  rw [distinct, List.mergeSort_of_pairwise (h.imp And.left), hkept ps (h.imp And.right)]

/-- The paths of a list, in order and each once, depend only on which paths it has. -/
theorem distinct_eq_of_mem_iff (hinj : ∀ p ∈ ps, ∀ q ∈ ps, p.components = q.components → p = q)
    (h : ∀ p, p ∈ ps ↔ p ∈ qs) : distinct ps = distinct qs := by
  have hps := pairwise_distinct ps
  have hqs := pairwise_distinct qs
  have hmem : ∀ p, p ∈ distinct ps ↔ p ∈ distinct qs := by
    intro p
    rw [distinct, distinct, mem_dropRepeats, mem_dropRepeats, List.mem_mergeSort,
      List.mem_mergeSort, h p]
    · intro p hp q hq
      exact hinj p ((h p).2 (List.mem_mergeSort.1 hp)) q ((h q).2 (List.mem_mergeSort.1 hq))
    · intro p hp q hq
      exact hinj p (List.mem_mergeSort.1 hp) q (List.mem_mergeSort.1 hq)
  have hnodup : ∀ {rs : List Path},
      rs.Pairwise (fun p q => le p q = true ∧ p.components ≠ q.components) → rs.Nodup :=
    fun hrs => hrs.imp fun hpq heq => hpq.2 (congrArg components heq)
  have hperm := (List.perm_ext_iff_of_nodup (hnodup hps) (hnodup hqs)).2 hmem
  refine hperm.eq_of_pairwise (fun p q _ _ hpq hqp => ?_) hps hqs
  exact absurd (leComponents_antisymm hpq.1 hqp.1) hpq.2

theorem mem_distinct (hinj : ∀ p ∈ ps, ∀ q ∈ ps, p.components = q.components → p = q) {p : Path} :
    p ∈ distinct ps ↔ p ∈ ps := by
  rw [distinct, mem_dropRepeats, List.mem_mergeSort]
  intro p hp q hq
  exact hinj p (List.mem_mergeSort.1 hp) q (List.mem_mergeSort.1 hq)

theorem mem_of_mem_distinct {p : Path} (h : p ∈ distinct ps) : p ∈ ps :=
  List.mem_mergeSort.1 ((dropRepeats_sublist _).subset h)

/-- Of paths with the same components one is kept. -/
theorem exists_mem_distinct {p : Path} (h : p ∈ ps) :
    ∃ q ∈ distinct ps, q.components = p.components := by
  have hkept : ∀ qs : List Path, ∀ p ∈ qs, ∃ q ∈ dropRepeats qs, q.components = p.components := by
    intro qs
    fun_induction dropRepeats qs with
    | case1 => simp
    | case2 first => exact fun p hp => ⟨p, hp, rfl⟩
    | case3 first second qs heq ih =>
      obtain ⟨hfirst, hqs⟩ := List.forall_mem_cons.1 ih
      exact List.forall_mem_cons.2 ⟨hfirst, List.forall_mem_cons.2 ⟨heq ▸ hfirst, hqs⟩⟩
    | case4 first second qs _ ih =>
      refine List.forall_mem_cons.2 ⟨⟨first, List.mem_cons_self .., rfl⟩, fun p hp => ?_⟩
      obtain ⟨q, hq, hsame⟩ := ih p hp
      exact ⟨q, List.mem_cons_of_mem _ hq, hsame⟩
  exact hkept _ p (List.mem_mergeSort.2 h)

end Distinct

end TextCatalog.Path
