import ProofTracker.Json.Printer
import ProofTracker.Proofs.Text.Trim

/-! # Written tokens are found again

A text spells tokens if it is cut into them wherever the end or a mark follows (`Spells`). Written
strings do (`spells_quoted`), and so do words without gaps and marks (`spells_word`); marks put such
texts together (`Spells.append_mark`). A control character without a short escape comes back as its
UTF-16 unit (`reread`), which stands for the same character (`characters?_map_reread`). -/

namespace ProofTracker.Json

variable {c d : Char} {s t w : List Char} {ts us : List Token} {r : List Letter}

/-! ### Letters -/

/-- The letter that is read where the character was written. -/
def reread (c : Char) : Letter :=
  if escaped.lookup c = none ∧ c < ' ' then .unit c.toNat else .char c

theorem hexValue?_digitChar {n : Nat} (h : n < 16) : hexValue? n.digitChar = some n := by
  revert n; decide

theorem tokens_hexDigits {n : Nat} (h : n < 65536) (r : List Letter) (t : List Char) :
    tokens (.hex 3 0 r) (hexDigits 4 n ++ t) = tokens (.string (.unit n :: r)) t := by
  have hd : ∀ m : Nat, hexValue? (m % 16).digitChar = some (m % 16) := fun m =>
    hexValue?_digitChar (by omega)
  have hn : 16 * (16 * (16 * (n / 16 / 16 / 16 % 16) + n / 16 / 16 % 16) + n / 16 % 16) + n % 16 =
      n := by omega
  simp only [hexDigits, List.nil_append, List.cons_append, tokens, hd]
  rw [Nat.mul_zero, Nat.zero_add, hn]

theorem shortEscapes_of_mem_escaped {p : Char × Char} (h : p ∈ escaped) :
    p.2 ≠ 'u' ∧ shortEscapes.lookup p.2 = some p.1 := by
  revert p; decide

theorem mem_of_lookup_eq_some {l : List (Char × Char)} (h : l.lookup c = some d) : (c, d) ∈ l := by
  obtain ⟨l₁, l₂, rfl, -⟩ := List.lookup_eq_some_iff.mp h
  simp

/-- A character without a short escape is none that has a meaning in a string. -/
theorem ne_of_lookup_escaped (h : escaped.lookup c = none) : c ≠ '"' ∧ c ≠ '\\' ∧ c ≠ '\n' := by
  have hne := List.lookup_eq_none_iff.mp h
  simp only [escaped, List.forall_mem_cons, bne_iff_ne] at hne
  exact ⟨hne.1, hne.2.1, hne.2.2.2.2.1⟩

theorem notMem_newline_hexDigits (k n : Nat) : '\n' ∉ hexDigits k n := by
  induction k generalizing n with
  | zero => simp [hexDigits]
  | succ k ih =>
    have hd : ∀ d < 16, Nat.digitChar d ≠ '\n' := by decide
    simp [hexDigits, ih, (hd _ (Nat.mod_lt n (by decide))).symm]

/-- A letter is written without a line feed. -/
theorem notMem_newline_letter (c : Char) : '\n' ∉ letter (.char c) := by
  rw [letter]
  cases he : escaped.lookup c with
  | some e =>
    have hall : ∀ p ∈ escaped, p.2 ≠ '\n' := by decide
    simpa using (hall _ (mem_of_lookup_eq_some he)).symm
  | none =>
    have hc := (ne_of_lookup_escaped he).2.2
    by_cases h : c < ' '
    · simp [h, notMem_newline_hexDigits]
    · simpa [h] using hc.symm

/-- **A written letter is read.** -/
theorem tokens_letter (c : Char) (r : List Letter) (t : List Char) :
    tokens (.string r) (letter (.char c) ++ t) = tokens (.string (reread c :: r)) t := by
  rw [letter, reread]
  cases he : escaped.lookup c with
  | some e =>
    obtain ⟨hu, hshort⟩ := shortEscapes_of_mem_escaped (mem_of_lookup_eq_some he)
    simp [tokens, hu, hshort]
  | none =>
    obtain ⟨hquote, hback, -⟩ := ne_of_lookup_escaped he
    by_cases hc : c < ' '
    · have hn : c.toNat < 65536 := Nat.lt_trans (UInt32.lt_iff_toNat_lt.mp hc) (by decide)
      have htokens := tokens_hexDigits hn r t
      simpa [hc, tokens] using htokens
    · simp [hc, tokens, hquote, hback]

/-- What is read where characters were written stands for these characters. -/
theorem characters?_map_reread (s : List Char) : characters? (s.map reread) = some s := by
  induction s with
  | nil => rfl
  | cons c s ih =>
    rw [List.map_cons]
    generalize s.map reread = r at ih
    unfold reread
    split_ifs with h
    · have hn : c.toNat < 32 := UInt32.lt_iff_toNat_lt.mp h.2
      have hh : isHigh c.toNat = false := by simp [isHigh]; omega
      have hl : isLow c.toNat = false := by simp [isLow]; omega
      have hunit : characters? (.unit c.toNat :: r) = (c :: ·) <$> characters? r := by
        match r with
        | [] => simp [characters?, hh, hl, Char.ofNat_toNat]
        | .char d :: r => simp [characters?, hh, hl, Char.ofNat_toNat]
        | .unit m :: r => simp [characters?, hh, hl, Char.ofNat_toNat]
      rw [hunit, ih]
      rfl
    · simp [characters?, ih]

/-! ### Texts made of tokens -/

/-- The text is cut into the tokens wherever it stands in front of a mark or the end. -/
def Spells (s : List Char) (ts : List Token) : Prop :=
  ∀ t, (∀ c ∈ t.head?, c ∈ marks) → tokens .between (s ++ t) = (ts ++ ·) <$> tokens .between t

theorem notMem_gaps_of_mem_marks (hc : c ∈ marks) : c ∉ gaps := by
  have hall : marks.all (· ∉ gaps) = true := by decide
  simpa using List.all_eq_true.mp hall c hc

theorem tokens_mark (hc : c ∈ marks) (t : List Char) :
    tokens .between (c :: t) = (.mark c :: ·) <$> tokens .between t := by
  rw [tokens, if_neg (notMem_gaps_of_mem_marks hc), if_pos hc]

theorem spells_nil : Spells [] [] := fun t _ => by simp

/-- A mark separates what stands before it from what stands behind it. -/
theorem Spells.append_mark (hs : Spells s ts) (hc : c ∈ marks) (ht : Spells t us) :
    Spells (s ++ c :: t) (ts ++ .mark c :: us) := by
  intro v hv
  rw [List.append_assoc, List.cons_append, hs (c :: (t ++ v)) (by simpa using hc), tokens_mark hc,
    ht v hv]
  simp [Function.comp_def]

/-- A text in brackets. -/
theorem Spells.bracket (hs : Spells s ts) (hc : c ∈ marks) (hd : d ∈ marks) :
    Spells (c :: s ++ [d]) (.mark c :: ts ++ [.mark d]) :=
  (spells_nil.append_mark hc hs).append_mark hd spells_nil

/-! ### Strings and words -/

/-- **A written string is read.** -/
theorem spells_quoted (s : List Char) : Spells (quoted (s.map .char)) [.string (s.map reread)] := by
  intro t _
  have hletters : ∀ r : List Letter,
      tokens (.string r) (s.flatMap (fun c => letter (.char c)) ++ '"' :: t) =
        (.string (r.reverse ++ s.map reread) :: ·) <$> tokens .between t := by
    induction s with
    | nil => intro r; simp [tokens]
    | cons c s ih =>
      intro r
      rw [List.flatMap_cons, List.append_assoc, tokens_letter, ih]
      simp
  have hquote : '"' ∉ gaps ∧ '"' ∉ marks := by decide
  unfold quoted
  rw [List.flatMap_map, List.cons_append, List.cons_append, List.append_assoc, tokens,
    if_neg hquote.1, if_neg hquote.2, if_pos rfl]
  exact hletters []

theorem notMem_newline_quoted (s : List Char) : '\n' ∉ quoted (s.map .char) := by
  unfold quoted
  simp [List.flatMap_map, notMem_newline_letter]

/-- A word ends in front of a mark and at the end. -/
theorem spells_word (hne : w ≠ []) (hw : ∀ c ∈ w, c ∉ gaps ∧ c ∉ marks ∧ c ≠ '"') :
    Spells w [.word w] := by
  intro t ht
  have hrest : ∀ v : List Char, (∀ c ∈ v, c ∉ gaps ∧ c ∉ marks) → ∀ r : List Char,
      tokens (.word r) (v ++ t) = (.word (r.reverse ++ v) :: ·) <$> tokens .between t := by
    intro v
    induction v with
    | nil =>
      intro _ r
      match t with
      | [] => simp [tokens]
      | c :: t =>
        have hc : c ∈ marks := ht c rfl
        rw [tokens_mark hc, List.nil_append, tokens, if_neg (notMem_gaps_of_mem_marks hc), if_pos hc]
        simp [Function.comp_def]
    | cons c v ih =>
      intro hv r
      obtain ⟨hgap, hmark⟩ := hv c List.mem_cons_self
      rw [List.cons_append, tokens, if_neg hgap, if_neg hmark,
        ih (fun d hd => hv d (List.mem_cons_of_mem _ hd))]
      simp
  match w, hne with
  | c :: w, _ =>
    obtain ⟨hgap, hmark, hquote⟩ := hw c List.mem_cons_self
    rw [List.cons_append, tokens, if_neg hgap, if_neg hmark, if_neg hquote,
      hrest w fun d hd => ⟨(hw d (List.mem_cons_of_mem _ hd)).1, (hw d (List.mem_cons_of_mem _ hd)).2.1⟩]
    rfl

end ProofTracker.Json
