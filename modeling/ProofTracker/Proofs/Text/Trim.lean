import Mathlib.Data.List.DropRight
import Mathlib.Tactic.SplitIfs
import ProofTracker.Text.Blank
import ProofTracker.Text.Count

/-! # Trimming, words and counts

A text is trimmed at an end iff there is no blank there (`trimStart_eq_self_iff`,
`trimEnd_eq_self_iff`), so trimming twice is trimming once. A blank cuts a text into words: the
words of `s`, a blank and `t` are those of `s` and those of `t` (`words_append_cons`). A count that
is written is read back (`count?_ofCount`), and its digits are neither blank nor a sign. -/

namespace ProofTracker.Text

variable {s t : List Char} {c : Char}

@[simp] theorem isBlank_space : isBlank ' ' = true := by decide

@[simp] theorem isBlank_newline : isBlank '\n' = true := by decide

/-! ### Blanks at the start -/

@[simp] theorem trimStart_nil : trimStart [] = [] := rfl

theorem trimStart_cons (c : Char) (s : List Char) :
    trimStart (c :: s) = if isBlank c then trimStart s else c :: s := by
  unfold trimStart; split_ifs with h <;> simp [h]

theorem trimStart_suffix (s : List Char) : trimStart s <:+ s := List.dropWhile_suffix _

theorem trimStart_trimStart (s : List Char) : trimStart (trimStart s) = trimStart s :=
  List.dropWhile_idempotent ..

theorem trimStart_eq_self_iff : trimStart s = s ↔ ∀ c ∈ s.head?, isBlank c = false := by
  cases s with
  | nil => simp
  | cons c s =>
    rw [trimStart_cons]
    split_ifs with h
    · have := (trimStart_suffix s).length_le
      simp only [List.head?_cons, Option.mem_def, Option.some.injEq, forall_eq', h, Bool.true_eq_false,
        iff_false]
      intro he
      have := congrArg List.length he
      simp only [List.length_cons] at this
      omega
    · simpa using h

/-! ### Blanks at the end -/

theorem trimEnd_eq_rdropWhile (s : List Char) : trimEnd s = s.rdropWhile isBlank := rfl

@[simp] theorem trimEnd_nil : trimEnd [] = [] := rfl

theorem trimEnd_concat (s : List Char) (c : Char) :
    trimEnd (s ++ [c]) = if isBlank c then trimEnd s else s ++ [c] := by
  rw [trimEnd_eq_rdropWhile, List.rdropWhile_concat]; rfl

theorem trimEnd_prefix_self (s : List Char) : trimEnd s <+: s := List.rdropWhile_prefix _ s

theorem trimEnd_trimEnd (s : List Char) : trimEnd (trimEnd s) = trimEnd s :=
  List.rdropWhile_idempotent _ _

theorem trimEnd_eq_self_iff : trimEnd s = s ↔ ∀ c ∈ s.getLast?, isBlank c = false := by
  rw [trimEnd_eq_rdropWhile, List.rdropWhile_eq_self_iff]
  constructor
  · intro h c hc
    obtain ⟨hne, rfl⟩ := List.mem_getLast?_eq_getLast hc
    simpa using h hne
  · intro h hne
    simp [h _ (List.getLast_mem_getLast? hne)]

theorem trimEnd_of_forall (h : ∀ c ∈ s, isBlank c = false) : trimEnd s = s :=
  trimEnd_eq_self_iff.mpr fun c hc => h c (List.mem_of_getLast? hc)

/-- Only the end of the last part matters for the blanks at the end. -/
theorem trimEnd_append (hne : t ≠ []) (h : trimEnd t = t) : trimEnd (s ++ t) = s ++ t := by
  rw [trimEnd_eq_self_iff] at h ⊢
  rw [List.getLast?_append_of_ne_nil _ hne]
  exact h

theorem trimEnd_cons (hne : s ≠ []) (h : trimEnd s = s) (c : Char) : trimEnd (c :: s) = c :: s :=
  trimEnd_append (s := [c]) hne h

/-! ### Blanks at both ends -/

theorem trim_eq_self_iff : trim s = s ↔ trimStart s = s ∧ trimEnd s = s := by
  constructor
  · intro h
    have hlen : (trimStart s).length = s.length := by
      have h1 := (trimEnd_prefix_self (trimStart s)).length_le
      have h2 := (trimStart_suffix s).length_le
      have h3 := congrArg List.length h
      unfold trim at h3
      omega
    have hs : trimStart s = s := (trimStart_suffix s).eq_of_length hlen
    exact ⟨hs, by unfold trim at h; rwa [hs] at h⟩
  · rintro ⟨h1, h2⟩; unfold trim; rw [h1, h2]

theorem trim_subset (s : List Char) : trim s ⊆ s := fun _ hc =>
  (trimStart_suffix s).subset ((trimEnd_prefix_self _).subset hc)

theorem trimStart_trim (s : List Char) : trimStart (trim s) = trim s := by
  rw [trimStart_eq_self_iff]
  intro c hc
  have hc' : c ∈ (trimStart s).head? := by
    obtain ⟨t, ht⟩ := trimEnd_prefix_self (trimStart s)
    unfold trim at hc
    rw [← ht]
    cases h : trimEnd (trimStart s) with
    | nil => rw [h] at hc; simp at hc
    | cons d u => rw [h] at hc; simpa using hc
  exact trimStart_eq_self_iff.mp (trimStart_trimStart s) c hc'

theorem trimEnd_trim (s : List Char) : trimEnd (trim s) = trim s := trimEnd_trimEnd _

theorem trim_trim (s : List Char) : trim (trim s) = trim s :=
  trim_eq_self_iff.mpr ⟨trimStart_trim s, trimEnd_trim s⟩

theorem trim_of_forall (h : ∀ c ∈ s, isBlank c = false) : trim s = s :=
  trim_eq_self_iff.mpr ⟨trimStart_eq_self_iff.mpr fun c hc => h c (List.mem_of_mem_head? hc),
    trimEnd_of_forall h⟩

theorem trim_cons_of_isBlank (h : isBlank c = true) (s : List Char) : trim (c :: s) = trim s := by
  unfold trim; rw [trimStart_cons, if_pos h]

theorem trim_concat_of_isBlank (h : isBlank c = true) (s : List Char) :
    trim (s ++ [c]) = trim s := by
  unfold trim trimStart
  rw [List.dropWhile_append]
  split_ifs with he
  · rw [List.isEmpty_iff.mp he]; simp [h]
  · rw [trimEnd_concat, if_pos h]

/-! ### Pieces and words -/

/-- No character that cuts is left in the pieces. -/
theorem eq_false_of_mem_splitOnP {p : Char → Bool} (h : t ∈ s.splitOnP p) (hc : c ∈ t) :
    p c = false := by
  induction s generalizing t with
  | nil => rw [List.splitOnP_nil, List.mem_singleton] at h; subst h; cases hc
  | cons a s ih =>
    rw [List.splitOnP_cons_eq_if_modifyHead] at h
    split_ifs at h with ha
    · rcases List.mem_cons.mp h with rfl | h
      · cases hc
      · exact ih h hc
    · obtain ⟨u, us, he⟩ := List.exists_cons_of_ne_nil (List.splitOnP_ne_nil p s)
      rw [he, List.modifyHead_cons] at h
      rcases List.mem_cons.mp h with rfl | h
      · rcases List.mem_cons.mp hc with rfl | hc
        · simpa using ha
        · exact ih (by rw [he]; simp) hc
      · exact ih (by rw [he]; simp [h]) hc

theorem notMem_of_mem_splitOn (h : t ∈ s.splitOn c) : c ∉ t := fun hc => by
  have := eq_false_of_mem_splitOnP h hc
  simp at this

theorem mem_words (h : t ∈ words s) : t ≠ [] ∧ ∀ c ∈ t, isBlank c = false := by
  obtain ⟨hs, hne⟩ := List.mem_filter.mp h
  exact ⟨by simpa using hne, fun _ => eq_false_of_mem_splitOnP hs⟩

theorem words_append_cons (h : isBlank c = true) (s t : List Char) :
    words (s ++ c :: t) = words s ++ words t := by
  unfold words; rw [List.splitOnP_append_cons s t h, List.filter_append]

theorem words_of_forall (hne : s ≠ []) (h : ∀ c ∈ s, isBlank c = false) : words s = [s] := by
  unfold words; rw [List.splitOnP_eq_singleton h]; simp [hne]

/-! ### Counts -/

theorem ofCount_ne_nil (n : UInt32) : ofCount n ≠ [] := Nat.toDigits_ne_nil

theorem isDigit_of_mem_ofCount {n : UInt32} (h : c ∈ ofCount n) : c.isDigit = true :=
  Nat.isDigit_of_mem_toDigits (by decide) (by decide) h

theorem isBlank_eq_false_of_isDigit (h : c.isDigit = true) : isBlank c = false := by
  simp only [Char.isDigit, Bool.and_eq_true, decide_eq_true_eq, UInt32.le_iff_toNat_le] at h
  have h1 : 48 ≤ c.toNat := h.1
  have h2 : c.toNat ≤ 57 := h.2
  simp only [isBlank, Bool.or_eq_false_iff, Bool.and_eq_false_iff, decide_eq_false_iff_not,
    beq_eq_false_iff_ne]
  omega

theorem isBlank_of_mem_ofCount {n : UInt32} (h : c ∈ ofCount n) : isBlank c = false :=
  isBlank_eq_false_of_isDigit (isDigit_of_mem_ofCount h)

theorem digits?_ofCount (n : UInt32) : digits? (ofCount n) = some n.toNat := by
  unfold digits?
  rw [if_pos ⟨ofCount_ne_nil n, List.all_eq_true.mpr fun _ => isDigit_of_mem_ofCount⟩]
  unfold ofCount
  rw [Nat.ofDigitChars_ten_toDigits]

/-- **A count that is written is read back.** -/
theorem count?_ofCount (n : UInt32) : count? (ofCount n) = some n := by
  have hd := digits?_ofCount n
  have hplus : ∀ s, ofCount n ≠ '+' :: s := fun s hs => by
    have := isDigit_of_mem_ofCount (n := n) (c := '+') (by rw [hs]; exact List.mem_cons_self)
    cases this
  unfold count?
  split
  · next s hs => exact absurd hs (hplus s)
  · rw [hd]; exact toCount?_toNat n

end ProofTracker.Text
