import ProofTracker.Proofs.Json.Value

/-! # What may stand in front of a value

Gaps in front of a text are passed over (`parse?_gaps`). Anything else that ends in front of an object
spoils it: a complete value, since nothing may begin behind one (`parse?_append_brace`), and a blank
that is no gap, since the word that begins with it stands for nothing (`parse?_blank`). -/

namespace ProofTracker.Json

variable {c : Char} {s w : List Char} {ts : List Token} {p : Place} {v : Value}

/-! ### Tokens -/

/-- A mark behind a text that is cut into tokens is a token of its own. -/
theorem tokens_append_mark (hc : c ∈ marks) (h : tokens p s = some ts) (t : List Char) :
    tokens p (s ++ c :: t) = (ts ++ .mark c :: ·) <$> tokens .between t := by
  have hgap := notMem_gaps_of_mem_marks hc
  fun_induction tokens p s generalizing ts
  -- The text ends, and a word that is not complete ends at the mark.
  case case1 | case2 =>
    cases h
    simp [tokens, hgap, hc]
  -- A token is complete, and more of them may follow.
  case case7 ih | case10 ih | case11 ih | case13 ih =>
    obtain ⟨us, hus, rfl⟩ := Option.map_eq_some_iff.mp h
    have hrest := ih hus
    simp_all [tokens, Function.comp_def]
  case case16 hchar ih =>
    rw [List.cons_append, tokens, if_neg ‹_›, if_neg ‹_›, if_neg hchar, ih h]
  all_goals simp_all [tokens]

theorem all_gaps_iff : s.all (· ∈ gaps) = true ↔ ∀ c ∈ s, c ∈ gaps := by simp

theorem tokens_gaps (h : ∀ c ∈ s, c ∈ gaps) (t : List Char) :
    tokens .between (s ++ t) = tokens .between t := by
  induction s with
  | nil => rfl
  | cons c s ih =>
    obtain ⟨hc, hs⟩ := List.forall_mem_cons.mp h
    rw [List.cons_append, tokens, if_pos hc, ih hs]

/-- A word that has been begun is the next token. -/
theorem exists_tokens_word (h : tokens (.word w) s = some ts) :
    ∃ w' us, ts = .word (w.reverse ++ w') :: us := by
  induction s generalizing w with
  | nil =>
    cases h
    exact ⟨[], [], by simp⟩
  | cons c s ih =>
    rw [tokens] at h
    split_ifs at h
    · obtain ⟨us, -, rfl⟩ := Option.map_eq_some_iff.mp h
      exact ⟨[], us, by simp⟩
    · obtain ⟨us, -, rfl⟩ := Option.map_eq_some_iff.mp h
      exact ⟨[], .mark c :: us, by simp⟩
    · obtain ⟨w', us, rfl⟩ := ih h
      exact ⟨c :: w', us, by simp⟩

/-! ### Texts that are no values -/

theorem parse?_eq_some_iff : parse? s = some v ↔
    ∃ ts, tokens .between s = some ts ∧ ts.foldlM step ([], .value) = some ([], .after v) := by
  unfold parse?
  simp only [Option.bind_eq_bind, Option.bind_eq_some_iff]
  refine exists_congr fun ts => and_congr_right fun _ => ⟨?_, fun h => ⟨_, h, rfl⟩⟩
  rintro ⟨q, hq, hv⟩
  split at hv
  · rwa [Option.some.inj hv] at hq
  · cases hv

theorem parse?_gaps (h : ∀ c ∈ s, c ∈ gaps) (t : List Char) : parse? (s ++ t) = parse? t := by
  unfold parse?
  rw [tokens_gaps h]

/-- Nothing may begin behind a value. -/
theorem parse?_append_brace (h : parse? s = some v) (t : List Char) :
    parse? (s ++ '\x7b' :: t) = none := by
  obtain ⟨ts, hts, hfold⟩ := parse?_eq_some_iff.mp h
  refine Option.eq_none_iff_forall_ne_some.mpr fun v' h' => ?_
  obtain ⟨ts', hts', hfold'⟩ := parse?_eq_some_iff.mp h'
  rw [tokens_append_mark (by decide) hts] at hts'
  obtain ⟨us, -, rfl⟩ := Option.map_eq_some_iff.mp hts'
  rw [List.foldlM_append, hfold, Option.bind_eq_bind, Option.bind_some, List.foldlM_cons] at hfold'
  cases hfold'

theorem isNumber_cons (hminus : c ≠ '-') (hdigit : c.isDigit = false) (w : List Char) :
    isNumber (c :: w) = false := by
  have hzero : c ≠ '0' := by
    rintro rfl
    cases hdigit
  have hpast : pastWhole? (c :: w) = none := by
    unfold pastWhole? pastDigits?
    split
    · next heq => exact absurd (List.cons.inj heq).1 hzero
    · simp [hdigit]
  unfold isNumber
  split
  · next heq => exact absurd (List.cons.inj heq).1 hminus
  · simp [hpast]

/-- A word that begins with a blank stands for nothing. -/
theorem scalar?_of_isBlank (hc : Text.isBlank c = true) (w : List Char) :
    scalar? (c :: w) = none := by
  have hplain : "ntf-".toList.all (!Text.isBlank ·) = true := by decide
  have hne : ∀ d ∈ "ntf-".toList, c ≠ d := by
    rintro d hd rfl
    have hd := List.all_eq_true.mp hplain c hd
    rw [hc] at hd
    cases hd
  have hdigit : c.isDigit = false := by
    by_contra h
    rw [Text.isBlank_eq_false_of_isDigit (by simpa using h)] at hc
    cases hc
  have hword : ∀ w', (∃ d ∈ "ntf-".toList, w'.head? = some d) → c :: w ≠ w' := by
    rintro _ ⟨d, hd, hw'⟩ rfl
    exact hne d hd (Option.some.inj hw')
  unfold scalar?
  rw [if_neg (hword _ ⟨'n', by decide⟩), if_neg (hword _ ⟨'t', by decide⟩),
    if_neg (hword _ ⟨'f', by decide⟩), isNumber_cons (hne '-' (by decide)) hdigit]
  rfl

/-- Nor is a text a value that begins with blanks which may not stand between tokens. -/
theorem parse?_blank (hs : ∀ c ∈ s, Text.isBlank c = true) (hgaps : ¬ ∀ c ∈ s, c ∈ gaps)
    (t : List Char) : parse? (s ++ t) = none := by
  induction s with
  | nil => simp at hgaps
  | cons c s ih =>
    obtain ⟨hc, hs⟩ := List.forall_mem_cons.mp hs
    by_cases hgap : c ∈ gaps
    · have hskip : parse? ([c] ++ (s ++ t)) = parse? (s ++ t) := parse?_gaps (by simpa using hgap) _
      rw [List.cons_append, ← List.singleton_append, hskip]
      exact ih hs fun h => hgaps (List.forall_mem_cons.mpr ⟨hgap, h⟩)
    · have hplain : ('"' :: marks).all (!Text.isBlank ·) = true := by decide
      have hmark : c ∉ '"' :: marks := fun h => by
        have hd := List.all_eq_true.mp hplain c h
        rw [hc] at hd
        cases hd
      rw [List.mem_cons, not_or] at hmark
      refine Option.eq_none_iff_forall_ne_some.mpr fun v h => ?_
      obtain ⟨ts, hts, hfold⟩ := parse?_eq_some_iff.mp h
      rw [List.cons_append, tokens, if_neg hgap, if_neg hmark.2, if_neg hmark.1] at hts
      obtain ⟨w, us, rfl⟩ := exists_tokens_word hts
      have hstart : start [] (.word (c :: w)) = none := by
        rw [start, scalar?_of_isBlank hc]
        rfl
      rw [List.foldlM_cons] at hfold
      replace hfold : (start [] (.word (c :: w)) >>= us.foldlM step) = _ := hfold
      rw [hstart] at hfold
      cases hfold

end ProofTracker.Json
