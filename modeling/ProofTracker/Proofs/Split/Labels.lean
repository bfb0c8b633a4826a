import Mathlib.Data.List.Nodup
import Mathlib.Data.List.Perm.Subperm
import ProofTracker.Proofs.Document.Line
import ProofTracker.Proofs.Sorted
import ProofTracker.Split

/-! # The labels of steps

The labels that steps are given are refused iff one of them is not solid, belongs to an item or is
given twice (`givenRefusal?_eq_none_iff`). There are always enough free numbered labels for the
other steps, since more numbers are tried than labels can be taken (`length_freeLabels`). Filled in,
given and free labels make one label a step, all different and all new (`labelled_of_stepLabels`).
-/

namespace ProofTracker

open Text

namespace Label

variable {l : String}

/-- A valid label with a number behind it is valid. -/
theorem Valid.numbered (h : Valid l) (n : Nat) : Valid s!"{l}_{n}" := by
  have hlist : (s!"{l}_{n}").toList = l.toList ++ '_' :: Nat.toDigits 10 n := by
    show (l ++ "_" ++ Nat.repr n).toList = _
    rw [String.toList_append, String.toList_append, Nat.toList_repr, List.append_assoc]
    rfl
  refine ⟨fun he => ?_, List.all_eq_true.mpr fun c hc => ?_⟩
  · rw [he] at hlist
    simp at hlist
  · rw [hlist, List.mem_append, List.mem_cons] at hc
    rcases hc with hc | rfl | hc
    · exact List.all_eq_true.mp h.2 c hc
    · decide
    · have hd : c.isDigit = true := Nat.isDigit_of_mem_toDigits (by decide) (by decide) hc
      have hb := isBlank_eq_false_of_isDigit hd
      have hne : ∀ d : Char, d.isDigit = false → c ≠ d := by
        rintro d hd' rfl
        rw [hd] at hd'
        cases hd'
      simp [allows, hb, hne '[' (by decide), hne ']' (by decide), hne ',' (by decide)]

end Label

namespace Catalog

variable {c : Catalog} {target l : String} {earlier given free labels : List String} {r : Refusal}
  {asked : List (Option String)} {steps : List Step} {k m n : Nat}

/-! ### Given labels -/

theorem givenRefusal?_eq_none_iff : c.givenRefusal? earlier given = none ↔
    (∀ l ∈ given, Label.Solid l.toList ∧ c.contains l = false ∧ l ∉ earlier) ∧ given.Nodup := by
  induction given generalizing earlier with
  | nil => simp [givenRefusal?]
  | cons l given ih =>
    rw [givenRefusal?, List.forall_mem_cons, List.nodup_cons]
    by_cases hsolid : Label.Solid l.toList
    · rw [if_neg (not_not.mpr hsolid)]
      by_cases htaken : c.contains l = true ∨ l ∈ earlier
      · rw [if_pos htaken]
        simp only [reduceCtorEq, false_iff]
        rintro ⟨⟨⟨-, hc, he⟩, -⟩, -⟩
        rw [hc] at htaken
        exact htaken.elim Bool.false_ne_true he
      · rw [if_neg htaken, ih]
        simp only [not_or, Bool.not_eq_true] at htaken
        constructor
        · rintro ⟨hall, hd⟩
          refine ⟨⟨⟨hsolid, htaken⟩, fun m hm => ?_⟩, fun hl => ?_, hd⟩
          · obtain ⟨hs, hc, he⟩ := hall m hm
            exact ⟨hs, hc, fun h => he (List.mem_cons_of_mem _ h)⟩
          · exact (hall l hl).2.2 List.mem_cons_self
        · rintro ⟨⟨-, hall⟩, hl, hd⟩
          refine ⟨fun m hm => ?_, hd⟩
          obtain ⟨hs, hc, he⟩ := hall m hm
          refine ⟨hs, hc, fun h => ?_⟩
          rcases List.mem_cons.mp h with rfl | h
          · exact hl hm
          · exact he h
    · rw [if_pos hsolid]
      simp [hsolid]

theorem givenRefusal?_eq_some (h : c.givenRefusal? earlier given = some r) :
    ∃ l, r = .badStepLabel l ∨ r = .stepLabelTaken l := by
  induction given generalizing earlier with
  | nil => cases h
  | cons l given ih =>
    rw [givenRefusal?] at h
    split at h
    · exact ⟨l, Or.inl (Option.some.inj h).symm⟩
    · split at h
      · exact ⟨l, Or.inr (Option.some.inj h).symm⟩
      · exact ih h

/-! ### Numbered labels -/

theorem numbered_inj (h : s!"{target}_{m}" = s!"{target}_{n}") : m = n := by
  have hlist := congrArg String.toList h
  have hdigits : Nat.toDigits 10 m = Nat.toDigits 10 n := by
    simpa [String.toList_append, Nat.toList_repr] using hlist
  have hread := congrArg (Nat.ofDigitChars 10 · 0) hdigits
  simpa [Nat.ofDigitChars_ten_toDigits] using hread

/-- Of `k` labels more than can be taken, at least `k` are free. -/
theorem length_freeLabels (c : Catalog) (target : String) (given : List String) (k : Nat) :
    (c.freeLabels target given k).length = k := by
  unfold freeLabels
  generalize hnum : ((List.range' 1 (c.size + given.length + k)).map fun n => s!"{target}_{n}") = ls
  have hlen : ls.length = c.size + given.length + k := by
    rw [← hnum, List.length_map, List.length_range']
  have hnodup : ls.Nodup := by
    rw [← hnum]
    exact List.Nodup.map (fun _ _ => numbered_inj) List.nodup_range'
  let taken : List String := c.toList.map Item.label ++ given
  have htaken : taken.length = c.size + given.length := by
    simp [taken, SortedBy.size]
  have hbusy : (ls.filter (· ∈ taken)).length ≤ taken.length := by
    refine (List.subperm_of_subset (hnodup.filter _) fun l hl => ?_).length_le
    simpa using (List.mem_filter.mp hl).2
  have hfree : ls.filter (fun l => !c.contains l && l ∉ given) =
      ls.filter fun l => !decide (l ∈ taken) := by
    refine List.filter_congr fun l _ => ?_
    rw [Bool.eq_iff_iff]
    simp [taken, SortedBy.contains]
  have hsplit := List.length_eq_length_filter_add (l := ls) (· ∈ taken)
  rw [List.length_take, hfree]
  omega

theorem mem_freeLabels (h : l ∈ c.freeLabels target given k) :
    (∃ n : Nat, l = s!"{target}_{n}") ∧ c.contains l = false ∧ l ∉ given := by
  unfold freeLabels at h
  obtain ⟨hl, hfree⟩ := List.mem_filter.mp (List.mem_of_mem_take h)
  obtain ⟨n, -, rfl⟩ := List.mem_map.mp hl
  simp only [Bool.and_eq_true, Bool.not_eq_true', decide_eq_true_eq] at hfree
  exact ⟨⟨n, rfl⟩, hfree⟩

theorem nodup_freeLabels (c : Catalog) (target : String) (given : List String) (k : Nat) :
    (c.freeLabels target given k).Nodup := by
  have hnodup : ((List.range' 1 (c.size + given.length + k)).map fun n => s!"{target}_{n}").Nodup :=
    List.Nodup.map (fun _ _ => numbered_inj) List.nodup_range'
  exact (hnodup.filter _).sublist (List.take_sublist _ _)

/-! ### One label a step -/

/-- Given and free labels are put together without a change. -/
theorem fillIn_perm (h : free.length = asked.countP (·.isNone)) :
    (fillIn asked free).Perm (asked.filterMap id ++ free) ∧
      (fillIn asked free).length = asked.length := by
  induction asked generalizing free with
  | nil =>
    have : free = [] := List.eq_nil_of_length_eq_zero h
    simp [fillIn, this]
  | cons a asked ih =>
    cases a with
    | some l =>
      have hcount : free.length = asked.countP (·.isNone) := by simpa using h
      obtain ⟨hp, hl⟩ := ih hcount
      simp only [fillIn, List.filterMap_cons_some (f := id) (a := some l) rfl, List.length_cons, hl,
        and_true]
      exact hp.cons l
    | none =>
      cases free with
      | nil => simp at h
      | cons l free =>
        have hcount : free.length = asked.countP (·.isNone) := by simpa using h
        obtain ⟨hp, hl⟩ := ih hcount
        simp only [fillIn, List.filterMap_cons_none (f := id) (a := none) rfl, List.length_cons, hl,
          and_true]
        exact (hp.cons l).trans List.perm_middle.symm

/-- The labels that steps are given. -/
def givenLabels (steps : List Step) : List String :=
  steps.filterMap fun s => s.label.map trimmed

theorem filterMap_asked (steps : List Step) :
    (steps.map fun s => s.label.map trimmed).filterMap id = givenLabels steps := by
  rw [List.filterMap_map]
  rfl

theorem stepLabels_of_some (h : c.givenRefusal? [] (givenLabels steps) = some r) :
    c.stepLabels target steps = .error r := by
  unfold stepLabels
  simp only [filterMap_asked, h]

theorem stepLabels_of_none (h : c.givenRefusal? [] (givenLabels steps) = none)
    (ha : (steps.map fun s => s.label.map trimmed) = asked) : c.stepLabels target steps =
      .ok (fillIn asked (c.freeLabels target (givenLabels steps) (asked.countP (·.isNone)))) := by
  subst ha
  unfold stepLabels
  simp only [filterMap_asked, h]

/-- What the labels of steps are like. -/
structure Labelled (c : Catalog) (target : String) (steps : List Step) (labels : List String) :
    Prop where
  length : labels.length = steps.length
  nodup : labels.Nodup
  new : ∀ l ∈ labels, c.contains l = false
  mem_iff : ∃ free : List String, (∀ l ∈ free, ∃ n : Nat, l = s!"{target}_{n}") ∧
    ∀ l, l ∈ labels ↔ l ∈ givenLabels steps ∨ l ∈ free

theorem labelled_of_stepLabels (h : c.stepLabels target steps = .ok labels) :
    Labelled c target steps labels := by
  cases hr : c.givenRefusal? [] (givenLabels steps) with
  | some r =>
    rw [stepLabels_of_some hr] at h
    cases h
  | none =>
    obtain ⟨hgiven, hnodup⟩ := givenRefusal?_eq_none_iff.mp hr
    obtain ⟨asked, hasked⟩ : ∃ asked, (steps.map fun s => s.label.map trimmed) = asked := ⟨_, rfl⟩
    rw [stepLabels_of_none hr hasked] at h
    generalize hfree : c.freeLabels target (givenLabels steps) (asked.countP (·.isNone)) = free at h
    have hcount : free.length = asked.countP (·.isNone) := by rw [← hfree, length_freeLabels]
    obtain ⟨hperm, hlen⟩ := fillIn_perm hcount
    obtain rfl : fillIn asked free = labels := Except.ok.inj h
    rw [← hasked, filterMap_asked, hasked] at hperm
    have hmem : ∀ l ∈ free, (∃ n : Nat, l = s!"{target}_{n}") ∧ c.contains l = false ∧
        l ∉ givenLabels steps := fun l hl => mem_freeLabels (hfree ▸ hl)
    have hiff : ∀ l, l ∈ fillIn asked free ↔ l ∈ givenLabels steps ∨ l ∈ free := fun l => by
      rw [hperm.mem_iff, List.mem_append]
    refine ⟨?_, ?_, ?_, free, fun l hl => (hmem l hl).1, hiff⟩
    · rw [hlen, ← hasked, List.length_map]
    · rw [hperm.nodup_iff, List.nodup_append]
      refine ⟨hnodup, hfree ▸ nodup_freeLabels .., ?_⟩
      rintro l hl m hm rfl
      exact (hmem l hm).2.2 hl
    · intro l hl
      rcases (hiff l).mp hl with hl | hl
      · exact (hgiven l hl).2.1
      · exact (hmem l hl).2.1

/-- Labels are found for the steps iff those that are given are in order. -/
theorem exists_stepLabels_iff : (∃ labels, c.stepLabels target steps = .ok labels) ↔
    (∀ l ∈ givenLabels steps, Label.Solid l.toList ∧ c.contains l = false) ∧
      (givenLabels steps).Nodup := by
  have hnone : c.givenRefusal? [] (givenLabels steps) = none ↔
      (∀ l ∈ givenLabels steps, Label.Solid l.toList ∧ c.contains l = false) ∧
        (givenLabels steps).Nodup := by
    rw [givenRefusal?_eq_none_iff]
    simp only [List.not_mem_nil, not_false_eq_true, and_true]
  rw [← hnone]
  cases hr : c.givenRefusal? [] (givenLabels steps) with
  | some r => simp [stepLabels_of_some hr]
  | none => simp [stepLabels_of_none hr rfl]

theorem stepLabels_eq_error (h : c.stepLabels target steps = .error r) :
    ∃ l, r = .badStepLabel l ∨ r = .stepLabelTaken l := by
  cases hr : c.givenRefusal? [] (givenLabels steps) with
  | some r' =>
    rw [stepLabels_of_some hr] at h
    obtain rfl : r' = r := Except.error.inj h
    exact givenRefusal?_eq_some hr
  | none =>
    rw [stepLabels_of_none hr rfl] at h
    cases h

/-- All labels of the steps of a valid target are valid iff the given ones are. -/
theorem Labelled.valid_iff (h : Labelled c target steps labels) (ht : Label.Valid target) :
    (∀ l ∈ labels, Label.Valid l) ↔ ∀ l ∈ givenLabels steps, Label.Valid l := by
  obtain ⟨free, hfree, hiff⟩ := h.mem_iff
  constructor
  · exact fun hall l hl => hall l ((hiff l).mpr (Or.inl hl))
  · intro hall l hl
    rcases (hiff l).mp hl with hl | hl
    · exact hall l hl
    · obtain ⟨n, rfl⟩ := hfree l hl
      exact ht.numbered n

end Catalog

end ProofTracker
