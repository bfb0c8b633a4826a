import Mathlib.Data.List.Forall2
import ProofTracker.Json.Value
import ProofTracker.Proofs.Json.Token

/-! # Written values are read again

A text denotes a value if it stands on one line and is read as the value wherever a value may stand
(`Denotes`). Written strings and numbers denote what they were written for (`denotes_quoted`,
`denotes_toDigits`), and arrays and records do if their parts do (`denotes_array`,
`denotes_record`), whatever the values are that they stand in. -/

namespace ProofTracker.Json

variable {c : Char} {s : List Char} {ts us : List Token} {v : Value} {vs : List Value} {n : Nat}
  {stack : List Frame}

/-! ### Numbers -/

theorem eq_zero_of_head?_toDigits (h : (Nat.toDigits 10 n).head? = some '0') : n = 0 := by
  induction n using Nat.strongRecOn with
  | ind n ih =>
    rw [Nat.toDigits_eq_if (by decide)] at h
    split_ifs at h with hn
    · have hall : ∀ m < 10, Nat.digitChar m = '0' → m = 0 := by decide
      exact hall n hn (Option.some.inj h)
    · rw [List.head?_append_of_ne_nil _ Nat.toDigits_ne_nil] at h
      have := ih (n / 10) (by omega) h
      omega

theorem isDigit_of_mem_toDigits (h : c ∈ Nat.toDigits 10 n) : c.isDigit = true :=
  Nat.isDigit_of_mem_toDigits (by decide) (by decide) h

theorem pastWhole?_toDigits (n : Nat) : pastWhole? (Nat.toDigits 10 n) = some [] := by
  have hdrop : (Nat.toDigits 10 n).dropWhile Char.isDigit = [] :=
    List.dropWhile_eq_nil_iff.mpr fun _ => isDigit_of_mem_toDigits
  obtain ⟨c, s, hs⟩ := List.exists_cons_of_ne_nil (Nat.toDigits_ne_nil (b := 10) (n := n))
  have hc : c.isDigit = true := isDigit_of_mem_toDigits (n := n) (by rw [hs]; simp)
  unfold pastWhole?
  split
  · next s' hs' =>
    -- A zero comes first only if there is nothing behind it.
    obtain rfl := eq_zero_of_head?_toDigits (n := n) (by rw [hs']; rfl)
    cases hs'
    rfl
  · unfold pastDigits?
    rw [hdrop, hs, if_pos (by simpa using hc)]

theorem isNumber_toDigits (n : Nat) : isNumber (Nat.toDigits 10 n) = true := by
  have hminus : ∀ s, Nat.toDigits 10 n ≠ '-' :: s := fun s hs => by
    have := isDigit_of_mem_toDigits (n := n) (c := '-') (by rw [hs]; simp)
    cases this
  unfold isNumber
  split
  · next s hs => exact absurd hs (hminus s)
  · simp only [pastWhole?_toDigits]
    rfl

theorem scalar?_toDigits (n : Nat) :
    scalar? (Nat.toDigits 10 n) = some (.number (Nat.toDigits 10 n)) := by
  have hne (w : List Char) (c : Char) (hc : c ∈ w) (hd : c.isDigit = false) :
      Nat.toDigits 10 n ≠ w := fun h => by
    have := isDigit_of_mem_toDigits (n := n) (h ▸ hc)
    rw [hd] at this
    cases this
  unfold scalar?
  rw [if_neg (hne _ 'n' (by decide) (by decide)), if_neg (hne _ 't' (by decide) (by decide)),
    if_neg (hne _ 'f' (by decide) (by decide)), isNumber_toDigits, if_pos rfl]

/-! ### Reading the tokens of a value -/

/-- The tokens are read as the value wherever a value may stand. -/
def Reads (ts : List Token) (v : Value) : Prop :=
  ∃ t us, ts = t :: us ∧ ∀ stack, (start stack t >>= us.foldlM step) = some (stack, .after v)

theorem Reads.foldlM (h : Reads ts v) (stack : List Frame) (us : List Token) :
    (ts ++ us).foldlM step (stack, .value) = us.foldlM step (stack, .after v) := by
  obtain ⟨t, ts, rfl, ht⟩ := h
  rw [List.foldlM_append, List.foldlM_cons]
  show (start stack t >>= ts.foldlM step) >>= _ = _
  rw [ht]
  rfl

/-- The first item of an array is read like any other one. -/
theorem Reads.foldlM_item (h : Reads ts v) (stack : List Frame) (us : List Token) :
    (ts ++ us).foldlM step (.array [] :: stack, .item) =
      (ts ++ us).foldlM step (.array [] :: stack, .value) := by
  obtain ⟨t, ts, rfl, ht⟩ := h
  have hclose : t ≠ .mark ']' := by
    rintro rfl
    cases ht []
  have hstep : step (.array [] :: stack, .item) t = start (.array [] :: stack) t := by
    unfold step
    split <;> simp_all
  rw [List.cons_append, List.foldlM_cons, List.foldlM_cons, hstep]
  rfl

theorem reads_string (s : List Letter) : Reads [.string s] (.string s) :=
  ⟨_, [], rfl, fun _ => rfl⟩

theorem reads_word (h : scalar? s = some v) : Reads [.word s] v :=
  ⟨_, [], rfl, fun _ => by rw [start, h]; rfl⟩

/-- The items of an array, from one of them on. -/
theorem foldlM_items {tss : List (List Token)} (h : Reads ts v) (hs : List.Forall₂ Reads tss vs)
    (items : List Value) (stack : List Frame) :
    ([Token.mark ','].intercalate (ts :: tss) ++ [Token.mark ']']).foldlM step
      (.array items :: stack, .value) = some (stack, .after (.array (items.reverse ++ v :: vs))) := by
  induction hs generalizing ts v items with
  | nil =>
    rw [List.intercalate_singleton, h.foldlM]
    simp [step]
  | cons h' _ ih =>
    rw [List.intercalate_cons_cons, List.append_assoc, List.append_assoc, h.foldlM]
    have := ih h' (v :: items)
    simpa [step] using this

theorem reads_array {tss : List (List Token)} (h : List.Forall₂ Reads tss vs) :
    Reads (.mark '[' :: [Token.mark ','].intercalate tss ++ [Token.mark ']']) (.array vs) := by
  refine ⟨_, _, rfl, fun stack => ?_⟩
  show ([Token.mark ','].intercalate tss ++ [Token.mark ']']).foldlM step
    (.array [] :: stack, .item) = _
  cases h with
  | nil => rfl
  | cons hv hvs =>
    refine Eq.trans ?_ (foldlM_items hv hvs [] stack)
    cases hvs with
    | nil => rw [List.intercalate_singleton, hv.foldlM_item]
    | cons =>
      simp only [List.intercalate_cons_cons, List.append_assoc]
      rw [hv.foldlM_item]

/-- The tokens of a member are its name, a colon and those of its value. -/
def ReadsMember (ts : List Token) (m : List Letter × Value) : Prop :=
  ∃ us, ts = .string m.1 :: .mark ':' :: us ∧ Reads us m.2

/-- The members of an object, from one of them on. -/
theorem foldlM_members {tss : List (List Token)} {m : List Letter × Value}
    {ms : List (List Letter × Value)} (h : ReadsMember ts m) (hs : List.Forall₂ ReadsMember tss ms)
    (members : List (List Letter × Value)) (stack : List Frame) :
    ([Token.mark ','].intercalate (ts :: tss) ++ [Token.mark '\x7d']).foldlM step
      (stack, .name members) = some (stack, .after (.object (members.reverse ++ m :: ms))) := by
  induction hs generalizing ts m members with
  | nil =>
    obtain ⟨us, rfl, hus⟩ := h
    have := hus.foldlM (.object members m.1 :: stack) [Token.mark '\x7d']
    rw [List.intercalate_singleton]
    simp only [List.cons_append, List.foldlM_cons, step]
    show (us ++ [Token.mark '\x7d']).foldlM step (.object members m.1 :: stack, .value) = _
    rw [this]
    simp [step]
  | @cons ts' m' tss ms h' _ ih =>
    obtain ⟨us, rfl, hus⟩ := h
    have := hus.foldlM (.object members m.1 :: stack)
      (.mark ',' :: ([Token.mark ','].intercalate (ts' :: tss) ++ [Token.mark '\x7d']))
    rw [List.intercalate_cons_cons]
    simp only [List.append_assoc, List.cons_append, List.nil_append, List.foldlM_cons, step]
    show (us ++ Token.mark ',' :: _).foldlM step (.object members m.1 :: stack, .value) = _
    rw [this]
    have := ih h' (m :: members)
    simpa [step] using this

theorem reads_object {tss : List (List Token)} {ms : List (List Letter × Value)}
    (h : List.Forall₂ ReadsMember tss ms) :
    Reads (.mark '\x7b' :: [Token.mark ','].intercalate tss ++ [Token.mark '\x7d']) (.object ms) := by
  refine ⟨_, _, rfl, fun stack => ?_⟩
  show ([Token.mark ','].intercalate tss ++ [Token.mark '\x7d']).foldlM step (stack, .member) = _
  cases h with
  | nil => rfl
  | cons hm hms =>
    refine Eq.trans ?_ (foldlM_members hm hms [] stack)
    obtain ⟨us, rfl, -⟩ := hm
    cases hms with
    | nil => rfl
    | cons => rw [List.intercalate_cons_cons]; rfl

/-! ### Values as texts -/

/-- The text stands on one line and is read as the value wherever a value may stand. -/
structure Denotes (s : List Char) (v : Value) : Prop where
  oneLine : '\n' ∉ s
  reads : ∃ ts, Spells s ts ∧ Reads ts v

theorem Denotes.parse? (h : Denotes s v) : Json.parse? s = some v := by
  obtain ⟨ts, hs, hv⟩ := h.reads
  have htokens : tokens .between s = some ts := by
    have := hs [] (by simp)
    simpa [tokens] using this
  have hread := hv.foldlM [] []
  rw [List.append_nil] at hread
  unfold Json.parse?
  simp only [htokens, hread, Option.bind_eq_bind, Option.bind_some]
  rfl

theorem denotes_quoted (s : List Char) :
    Denotes (quoted (s.map .char)) (.string (s.map reread)) :=
  ⟨notMem_newline_quoted s, _, spells_quoted s, reads_string _⟩

theorem denotes_toDigits (n : Nat) :
    Denotes (Nat.toDigits 10 n) (.number (Nat.toDigits 10 n)) := by
  have hplain : ('\n' :: '"' :: (gaps ++ marks)).all (!·.isDigit) = true := by decide
  have hdigit : ∀ c ∈ Nat.toDigits 10 n, c ∉ '\n' :: '"' :: (gaps ++ marks) := fun c hc hp => by
    have hno := List.all_eq_true.mp hplain c hp
    rw [isDigit_of_mem_toDigits hc] at hno
    cases hno
  simp only [List.mem_cons, List.mem_append, not_or] at hdigit
  exact ⟨fun hc => (hdigit _ hc).1 rfl, _,
    spells_word Nat.toDigits_ne_nil fun c hc => ⟨(hdigit c hc).2.2.1, (hdigit c hc).2.2.2,
      (hdigit c hc).2.1⟩, reads_word (scalar?_toDigits n)⟩

theorem compactItems_eq_map (vs : List Value) : compactItems vs = vs.map compact := by
  induction vs with
  | nil => rfl
  | cons v vs ih => rw [compactItems, ih]; rfl

theorem compactMembers_eq_map (ms : List (List Letter × Value)) :
    compactMembers ms = ms.map fun m => quoted m.1 ++ ':' :: compact m.2 := by
  induction ms with
  | nil => rfl
  | cons m ms ih => obtain ⟨n, v⟩ := m; rw [compactMembers, ih]; rfl

/-- Texts on one line of which each spells tokens that are read as `q` wants, with commas between
them. -/
theorem exists_spells_intercalate {β : Type} {q : List Token → β → Prop} {ss : List (List Char)}
    {bs : List β} (h : List.Forall₂ (fun s b => '\n' ∉ s ∧ ∃ ts, Spells s ts ∧ q ts b) ss bs) :
    '\n' ∉ [','].intercalate ss ∧ ∃ tss,
      Spells ([','].intercalate ss) ([Token.mark ','].intercalate tss) ∧ List.Forall₂ q tss bs := by
  induction h with
  | nil => exact ⟨by simp, [], spells_nil, .nil⟩
  | @cons s b ss bs hb hrest ih =>
    obtain ⟨hline, ts, hs, hq⟩ := hb
    obtain ⟨hlines, tss, hss, hqs⟩ := ih
    cases hrest with
    | nil =>
      cases hqs
      exact ⟨by simpa using hline, [ts], by simpa using hs, .cons hq .nil⟩
    | cons _ _ =>
      cases hqs with
      | cons hq' hqs =>
        refine ⟨?_, _ :: _ :: _, ?_, .cons hq (.cons hq' hqs)⟩
        · rw [List.intercalate_cons_cons]
          simp [hline, hlines]
        · simp only [List.intercalate_cons_cons, List.append_assoc]
          exact hs.append_mark (by decide) hss

/-- **An array is read** if its items are. -/
theorem denotes_array {ws : List Value} (h : List.Forall₂ (fun v w => Denotes (compact v) w) vs ws) :
    Denotes (compact (.array vs)) (.array ws) := by
  have hparts : List.Forall₂ (fun s w => '\n' ∉ s ∧ ∃ ts, Spells s ts ∧ Reads ts w)
      (vs.map compact) ws := by
    rw [List.forall₂_map_left_iff]
    exact h.imp fun _ _ hv => ⟨hv.oneLine, hv.reads⟩
  obtain ⟨hline, tss, hspells, hreads⟩ := exists_spells_intercalate hparts
  rw [compact, compactItems_eq_map]
  exact ⟨by simpa using hline, _, hspells.bracket (by decide) (by decide), reads_array hreads⟩

/-- The record that is read where one with these members was written. -/
def Value.rereadRecord (ms : List (String × Value)) : Value :=
  .object (ms.map fun m => (m.1.toList.map reread, m.2))

/-- **A record is read** if its values are. -/
theorem denotes_record {ms ns : List (String × Value)}
    (h : List.Forall₂ (fun m n => m.1 = n.1 ∧ Denotes (compact m.2) n.2) ms ns) :
    Denotes (compact (.record ms)) (.rereadRecord ns) := by
  have hparts : List.Forall₂ (fun s m => '\n' ∉ s ∧ ∃ ts, Spells s ts ∧ ReadsMember ts m)
      (ms.map fun m => quoted (m.1.toList.map .char) ++ ':' :: compact m.2)
      (ns.map fun n => (n.1.toList.map reread, n.2)) := by
    rw [List.forall₂_map_left_iff, List.forall₂_map_right_iff]
    refine h.imp fun m n ⟨hname, hv⟩ => ?_
    obtain ⟨ts, hs, hread⟩ := hv.reads
    rw [hname]
    exact ⟨by simp [notMem_newline_quoted, hv.oneLine], _,
      (spells_quoted n.1.toList).append_mark (by decide) hs, ts, rfl, hread⟩
  obtain ⟨hline, tss, hspells, hreads⟩ := exists_spells_intercalate hparts
  rw [Value.record, compact, compactMembers_eq_map, List.map_map]
  exact ⟨by simpa [Function.comp_def] using hline, _, hspells.bracket (by decide) (by decide),
    reads_object hreads⟩

end ProofTracker.Json
