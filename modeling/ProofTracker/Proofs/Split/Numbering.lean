import ProofTracker.Proofs.Checked
import ProofTracker.Proofs.Split.Labels

/-! # Numbers for the steps without a label

The labels of steps are also found one after the other by a loop with a counter (`Naming.round?`).
A step without a label gets the next number whose label is not taken, where what is taken are the
labels that any steps are given and those found before. The latter have lower numbers, so they make
no difference, and the loop finds what `fillIn` puts in (`Naming.exists_rounds`). There are more
numbers up to the number of items and steps than labels that can be taken, so the counter does not
go further. The numbers that are found are the least free ones (`least_freeNumbers`). -/

namespace ProofTracker.Catalog

open Text

/-- The label of the target with this number behind it is neither in the catalog nor given to a
step. -/
def isFree (c : Catalog) (target : String) (given : List String) (n : Nat) : Bool :=
  !c.contains s!"{target}_{n}" && s!"{target}_{n}" ∉ given

theorem isFree_iff {c : Catalog} {target : String} {given : List String} {n : Nat} :
    c.isFree target given n = true ↔
      c.contains s!"{target}_{n}" = false ∧ s!"{target}_{n}" ∉ given := by
  simp [isFree]

/-- The numbers are the least ones with the property, in ascending order. -/
structure Least (p : Nat → Prop) (ns : List Nat) : Prop where
  ascending : ns.Pairwise (· < ·)
  holds : ∀ n ∈ ns, p n
  below : ∀ m, p m → m ∉ ns → ∀ n ∈ ns, n < m

/-- The labels of steps while they are found one after the other. -/
structure Naming where
  /-- The last number that has been tried. -/
  counter : Nat
  /-- The labels that steps are given, and those found for the others. -/
  taken : LabelSet
  /-- The labels of the steps that have one by now. -/
  labels : List String
  /-- What the other steps are given. -/
  asked : List (Option String)

namespace Naming

/-- No number has been tried, and what steps are given is taken. -/
def start (asked : List (Option String)) : Naming :=
  ⟨0, .ofList (asked.filterMap id), [], asked⟩

/-- One round of the loop. The next step gets the label that it is given, or else the next number is
tried for it. The loop ends when each step has a label. -/
def round? (c : Catalog) (target : String) : Naming → Option Naming
  | ⟨_, _, _, []⟩ => none
  | ⟨n, taken, labels, some l :: asked⟩ => some ⟨n, taken, labels ++ [l], asked⟩
  | ⟨n, taken, labels, none :: asked⟩ =>
    let l := s!"{target}_{n + 1}"
    if c.contains l || taken.contains l then some ⟨n + 1, taken, labels, none :: asked⟩
    else some ⟨n + 1, taken.insert l, labels ++ [l], asked⟩

end Naming

variable {c : Catalog} {target : String} {given labels free : List String}
  {asked : List (Option String)} {steps : List Step} {taken : LabelSet} {k m n width : Nat}

/-! ### The least free numbers -/

/-- The first free numbers, of so many that enough of them are free. -/
def freeNumbers (c : Catalog) (target : String) (given : List String) (k : Nat) : List Nat :=
  ((List.range' 1 (c.size + given.length + k)).filter (c.isFree target given)).take k

theorem freeLabels_eq_map (c : Catalog) (target : String) (given : List String) (k : Nat) :
    c.freeLabels target given k = (c.freeNumbers target given k).map fun n => s!"{target}_{n}" := by
  simp only [freeLabels, freeNumbers, List.filter_map, List.map_take]
  rfl

theorem length_freeNumbers (c : Catalog) (target : String) (given : List String) (k : Nat) :
    (c.freeNumbers target given k).length = k := by
  have h := c.length_freeLabels target given k
  rwa [freeLabels_eq_map, List.length_map] at h

/-- The first members of an ascending list with the property, among all numbers up to a bound. -/
theorem least_freeNumbers (c : Catalog) (target : String) (given : List String) (k : Nat) :
    Least (fun n => 0 < n ∧ c.isFree target given n = true) (c.freeNumbers target given k) := by
  unfold freeNumbers
  generalize c.size + given.length + k = bound
  have hsorted : ((List.range' 1 bound).filter (c.isFree target given)).Pairwise (· < ·) :=
    (List.pairwise_lt_range' 1).filter _
  have hmem : ∀ n, n ∈ (List.range' 1 bound).filter (c.isFree target given) ↔
      (0 < n ∧ n ≤ bound) ∧ c.isFree target given n = true := fun n => by
    rw [List.mem_filter, List.mem_range'_1]
    exact and_congr_left fun _ => by omega
  generalize (List.range' 1 bound).filter (c.isFree target given) = ns at hsorted hmem
  refine ⟨hsorted.sublist (List.take_sublist k ns), fun n hn => ?_, fun m hm hout n hn => ?_⟩
  · obtain ⟨⟨hpos, -⟩, hfree⟩ := (hmem n).mp (List.mem_of_mem_take hn)
    exact ⟨hpos, hfree⟩
  · have hle : n ≤ bound := ((hmem n).mp (List.mem_of_mem_take hn)).1.2
    by_cases hbound : m ≤ bound
    · -- The number is a later member of the list, behind those that are taken from it.
      have hm' : m ∈ ns := (hmem m).mpr ⟨⟨hm.1, hbound⟩, hm.2⟩
      rw [← List.take_append_drop k ns, List.mem_append] at hm'
      rw [← List.take_append_drop k ns, List.pairwise_append] at hsorted
      exact hsorted.2.2 n hn m (hm'.resolve_left hout)
    · omega

/-! ### The loop -/

/-- Labels beyond those that are needed are not looked at. -/
theorem fillIn_take (asked : List (Option String)) (free : List String) :
    fillIn asked (free.take (asked.countP (·.isNone))) = fillIn asked free := by
  induction asked generalizing free with
  | nil => rfl
  | cons a asked ih =>
    cases a with
    | some l =>
      rw [List.countP_cons_of_neg (by simp), fillIn, fillIn, ih]
    | none =>
      rw [List.countP_cons_of_pos (by simp)]
      cases free with
      | nil => rfl
      | cons l free => rw [List.take_succ_cons, fillIn, fillIn, ih]

theorem contains_insert_numbered (h : ∀ i, n < i →
    taken.contains s!"{target}_{i}" = decide (s!"{target}_{i}" ∈ given)) :
    ∀ i, n + 1 < i → (taken.insert s!"{target}_{n + 1}").contains s!"{target}_{i}" =
      decide (s!"{target}_{i}" ∈ given) := by
  intro i hi
  have hne : ¬ s!"{target}_{n + 1}" = s!"{target}_{i}" := fun he => by
    have := numbered_inj he
    omega
  rw [SortedBy.contains_insert, h i (by omega), decide_eq_false hne, Bool.false_or]

namespace Naming

/-- What a round tries for a step without a label. -/
theorem round?_none (c : Catalog) (labels : List String) (asked : List (Option String))
    (h : taken.contains s!"{target}_{n + 1}" = decide (s!"{target}_{n + 1}" ∈ given)) :
    round? c target ⟨n, taken, labels, none :: asked⟩ =
      if c.isFree target given (n + 1) then
        some ⟨n + 1, taken.insert s!"{target}_{n + 1}", labels ++ [s!"{target}_{n + 1}"], asked⟩
      else some ⟨n + 1, taken, labels, none :: asked⟩ := by
  have hfree : c.isFree target given (n + 1) =
      !(c.contains s!"{target}_{n + 1}" || taken.contains s!"{target}_{n + 1}") := by
    unfold isFree
    rw [h, Bool.not_or, ← decide_not]
  simp only [round?]
  rw [hfree]
  cases c.contains s!"{target}_{n + 1}" || taken.contains s!"{target}_{n + 1}" <;> rfl

/-- **The loop ends** before it runs out of numbers, if enough of them are free, and it has filled
the gaps with the labels of the free ones. -/
theorem exists_rounds {n width : Nat} {taken : LabelSet} (labels : List String)
    {asked : List (Option String)}
    (htaken : ∀ i, n < i →
      taken.contains s!"{target}_{i}" = decide (s!"{target}_{i}" ∈ given))
    (hcount : asked.countP (·.isNone) ≤
      ((List.range' (n + 1) width).filter (c.isFree target given)).length) :
    ∃ k s, rounds (round? c target) k ⟨n, taken, labels, asked⟩ = some s ∧ s.asked = [] ∧
      s.counter ≤ n + width ∧
      s.labels = labels ++ fillIn asked (((List.range' (n + 1) width).filter
        (c.isFree target given)).map fun i => s!"{target}_{i}") := by
  match asked, width with
  | [], width => exact ⟨0, _, rfl, rfl, by simp, by simp [fillIn]⟩
  | some l :: asked, width =>
    rw [List.countP_cons_of_neg (by simp)] at hcount
    obtain ⟨k, s, hk, hend, hle, hs⟩ := exists_rounds (labels ++ [l]) htaken hcount
    refine ⟨k + 1, s, hk, hend, hle, ?_⟩
    rw [hs, fillIn, List.append_assoc, List.singleton_append]
  | none :: asked, 0 =>
    rw [List.countP_cons_of_pos (by simp)] at hcount
    simp at hcount
  | none :: asked, width + 1 =>
    rw [List.range'_succ] at hcount ⊢
    have hround := round?_none c labels asked (htaken _ n.lt_succ_self)
    by_cases hfree : c.isFree target given (n + 1) = true
    · rw [if_pos hfree] at hround
      rw [List.filter_cons_of_pos hfree, List.countP_cons_of_pos (by simp)] at hcount
      obtain ⟨k, s, hk, hend, hle, hs⟩ := exists_rounds
        (labels ++ [s!"{target}_{n + 1}"]) (contains_insert_numbered htaken)
        (Nat.le_of_succ_le_succ hcount)
      refine ⟨k + 1, s, by rw [rounds, hround]; exact hk, hend, by omega, ?_⟩
      rw [hs, List.filter_cons_of_pos hfree, List.map_cons, fillIn, List.append_assoc,
        List.singleton_append]
    · -- The number is not free, so the same step waits for the next one.
      rw [if_neg hfree] at hround
      rw [List.filter_cons_of_neg hfree] at hcount
      obtain ⟨k, s, hk, hend, hle, hs⟩ := exists_rounds labels
        (fun i hi => htaken i (Nat.lt_of_succ_lt hi)) hcount
      refine ⟨k + 1, s, by rw [rounds, hround]; exact hk, hend, by omega, ?_⟩
      rw [hs, List.filter_cons_of_neg hfree]
termination_by asked.length + width

end Naming

/-! ### Which step has which label -/

/-- What is given goes to the step that it is given to, and the free labels to the others. -/
theorem zip_fillIn (h : free.length = asked.countP (·.isNone)) :
    (∀ p ∈ asked.zip (fillIn asked free), ∀ l, p.1 = some l → p.2 = l) ∧
      ((asked.zip (fillIn asked free)).filter (·.1.isNone)).map Prod.snd = free := by
  induction asked generalizing free with
  | nil =>
    obtain rfl : free = [] := List.eq_nil_of_length_eq_zero h
    simp [fillIn]
  | cons a asked ih =>
    cases a with
    | some m =>
      rw [List.countP_cons_of_neg (by simp)] at h
      obtain ⟨hgiven, hfree⟩ := ih h
      rw [fillIn, List.zip_cons_cons, List.forall_mem_cons, List.filter_cons_of_neg (by simp)]
      exact ⟨⟨fun l hl => Option.some.inj hl, hgiven⟩, hfree⟩
    | none =>
      cases free with
      | nil => simp at h
      | cons m free =>
        rw [List.countP_cons_of_pos (by simp)] at h
        obtain ⟨hgiven, hfree⟩ := ih (Nat.succ_inj.mp h)
        rw [fillIn, List.zip_cons_cons, List.forall_mem_cons, List.filter_cons_of_pos (by simp),
          List.map_cons, hfree]
        exact ⟨⟨fun l hl => absurd hl (by simp), hgiven⟩, rfl⟩

theorem stepLabels_eq_ok (h : c.stepLabels target steps = .ok labels)
    (ha : (steps.map fun s => s.label.map trimmed) = asked) :
    fillIn asked (c.freeLabels target (givenLabels steps) (asked.countP (·.isNone))) = labels := by
  cases hr : c.givenRefusal? [] (givenLabels steps) with
  | some r =>
    rw [stepLabels_of_some hr] at h
    cases h
  | none =>
    rw [stepLabels_of_none hr ha] at h
    exact Except.ok.inj h

theorem countP_asked (steps : List Step) :
    (steps.map fun s => s.label.map trimmed).countP (·.isNone) =
      steps.countP (·.label.isNone) := by
  rw [List.countP_map]
  exact List.countP_congr fun s _ => by simp

/-- Each step is given a label or waits for a number. -/
theorem length_givenLabels_add (steps : List Step) :
    (givenLabels steps).length + steps.countP (·.label.isNone) = steps.length := by
  unfold givenLabels
  rw [List.length_filterMap_eq_countP,
    List.length_eq_countP_add_countP (·.label.isSome) (l := steps)]
  congr 1 <;> exact List.countP_congr fun s _ => by simp

theorem contains_ofList_given (given : List String) (l : String) :
    (.ofList given : LabelSet).contains l = decide (l ∈ given) := by
  rw [Bool.eq_iff_iff, SortedBy.contains_label_iff, SortedBy.mem_ofList_labels, decide_eq_true_eq]

/-- The loop ends with the labels that are filled in. -/
theorem Naming.exists_rounds_start (c : Catalog) (target : String) (steps : List Step)
    (ha : (steps.map fun s => s.label.map trimmed) = asked) :
    ∃ k s, rounds (round? c target) k (start asked) = some s ∧ s.asked = [] ∧
      s.counter ≤ c.size + steps.length ∧
      s.labels = fillIn asked (c.freeLabels target (givenLabels steps)
        (asked.countP (·.isNone))) := by
  have hgaps : asked.countP (·.isNone) = steps.countP (·.label.isNone) := ha ▸ countP_asked steps
  have hgiven : asked.filterMap id = givenLabels steps := ha ▸ filterMap_asked steps
  have hsteps := length_givenLabels_add steps
  have henough := (c.length_freeNumbers target (givenLabels steps)
    (asked.countP (·.isNone))).symm.trans_le (List.length_take_le' ..)
  obtain ⟨k, s, hk, hend, hle, hs⟩ := exists_rounds []
    (fun i _ => contains_ofList_given (givenLabels steps) s!"{target}_{i}") henough
  refine ⟨k, s, by rw [start, hgiven]; exact hk, hend, by omega, ?_⟩
  rw [hs, List.nil_append, ← fillIn_take, ← List.map_take, freeLabels_eq_map]
  rfl

/-- **The labels of steps.** The loop that looks for them ends, whatever is taken, and its counter
goes no further than the number of items and steps. If the steps get labels at all, they are those
that the loop finds: one a step, all different, and none of an item. A step that is given a label
gets it without the blanks around it. The other steps get, in their order, the target's label with
the least numbers from 1 on that make a label which no item has and no step is given. -/
theorem stepLabels_numbered (c : Catalog) (target : String) (steps : List Step) :
    (∃ k s, rounds (Naming.round? c target) k
        (.start (steps.map fun s => s.label.map trimmed)) = some s ∧ s.asked = [] ∧
      s.counter ≤ c.size + steps.length ∧
      ∀ labels, c.stepLabels target steps = .ok labels → s.labels = labels) ∧
    ∀ labels, c.stepLabels target steps = .ok labels →
      labels.length = steps.length ∧ labels.Nodup ∧ (∀ l ∈ labels, c.contains l = false) ∧
      (∀ p ∈ steps.zip labels, ∀ l, p.1.label = some l → p.2 = trimmed l) ∧
      ∃ ns : List Nat, ns.length = steps.countP (·.label.isNone) ∧
        ((steps.zip labels).filter (·.1.label.isNone)).map Prod.snd =
          ns.map (fun n => s!"{target}_{n}") ∧
        Least (fun n => 0 < n ∧ c.contains s!"{target}_{n}" = false ∧
          s!"{target}_{n}" ∉ givenLabels steps) ns := by
  obtain ⟨asked, ha⟩ : ∃ asked, (steps.map fun s => s.label.map trimmed) = asked := ⟨_, rfl⟩
  constructor
  · obtain ⟨k, s, hk, hend, hle, hs⟩ := Naming.exists_rounds_start c target steps ha
    exact ⟨k, s, ha ▸ hk, hend, hle, fun labels h => hs.trans (stepLabels_eq_ok h ha)⟩
  · intro labels h
    have hl := labelled_of_stepLabels h
    have hgaps : asked.countP (·.isNone) = steps.countP (·.label.isNone) := ha ▸ countP_asked steps
    obtain ⟨hgiven, hfree⟩ := zip_fillIn
      (c.length_freeLabels target (givenLabels steps) (asked.countP (·.isNone)))
    rw [stepLabels_eq_ok h ha, ← ha, List.zip_map_left] at hgiven hfree
    refine ⟨hl.length, hl.nodup, hl.new, fun p hp l hpl => ?_,
      c.freeNumbers target (givenLabels steps) (asked.countP (·.isNone)), ?_, ?_, ?_⟩
    · refine hgiven _ (List.mem_map.mpr ⟨p, hp, rfl⟩) (trimmed l) ?_
      rw [Prod.map_fst, hpl]
      rfl
    · rw [length_freeNumbers, hgaps]
    · rw [← freeLabels_eq_map, ← ha, ← hfree, List.filter_map, List.map_map]
      congr 1
      exact List.filter_congr fun p _ => by simp
    · simpa only [isFree_iff] using c.least_freeNumbers target (givenLabels steps) _

/-- A number that an item has, and one that a later step is given with a blank behind it. -/
theorem stepLabels_numbered_skipping :
    let item (l : String) : Item := { label := l, kind := .lem, attempts := .fresh 1 }
    let c : Catalog := .ofList [item "t", item "t_2"]
    let step (l : Option String) : Step := { label := l, statement := "" }
    let steps := [step none, step (some "t_1 "), step none, step (some "x"), step none]
    c.stepLabels "t" steps = .ok ["t_3", "t_1", "t_4", "x", "t_5"] ∧
    (∃ k s, rounds (Naming.round? c "t") k
        (.start (steps.map fun s => s.label.map trimmed)) = some s ∧ s.asked = [] ∧
      s.counter ≤ 7 ∧ s.labels = ["t_3", "t_1", "t_4", "x", "t_5"]) ∧
    ∃ ns : List Nat, ns.length = 3 ∧ ["t_3", "t_4", "t_5"] = ns.map (fun n => s!"t_{n}") ∧
      Least (fun n => 0 < n ∧ c.contains s!"t_{n}" = false ∧ s!"t_{n}" ∉ ["t_1", "x"]) ns := by
  intro item c step steps
  have h : c.stepLabels "t" steps = .ok ["t_3", "t_1", "t_4", "x", "t_5"] := by decide +kernel
  obtain ⟨⟨k, s, hk, hend, hle, hs⟩, hlabels⟩ := stepLabels_numbered c "t" steps
  obtain ⟨-, -, -, -, ns, hlen, hns, hleast⟩ := hlabels _ h
  have hgiven : givenLabels steps = ["t_1", "x"] := by decide +kernel
  have hbound : c.size + steps.length = 7 := by decide +kernel
  rw [hgiven] at hleast
  exact ⟨h, ⟨k, s, hk, hend, hbound ▸ hle, hs _ h⟩, ns, hlen, hns, hleast⟩

end ProofTracker.Catalog
