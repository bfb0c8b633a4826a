import Mathlib.Algebra.Group.Nat.Defs
import ProofTracker.Journal.Timestamp
import ProofTracker.Proofs.Text.Trim

/-! # Timestamps are read back

A reader that finds something at the start of a text hands on the text behind it (`bind_of_eq_some`),
so the parts of a timestamp are read one after the other: numbers with leading zeros
(`twoDigits_padded`), the year (`year_yearText`) and the fraction of a second (`fraction_fractionText`).
A timestamp that the calendar and the clock have is read back as it was written
(`parse?_render`). -/

namespace ProofTracker.Timestamp

open Text

variable {α β : Type} {x : Reader α} {f : α → Reader β} {a : α} {s t : List Char} {c : Char}
  {w n : Nat}

/-- A point in time that the calendar and the clock have. -/
structure Valid (t : Timestamp) : Prop where
  date : t.date.Valid
  minute : t.minute < 1440
  second : t.second ≤ 60
  nano : t.nano < 1000000000

/-! ### Readers -/

theorem bind_of_eq_some (h : x s = some (a, t)) : (x >>= f) s = f a t := by
  show (x s >>= _) = _
  rw [h]
  rfl

theorem bind_get (f : List Char → Reader β) (s : List Char) : (get >>= f) s = f s s := rfl

theorem bind_set (f : PUnit → Reader β) (s t : List Char) : (set s >>= f) t = f ⟨⟩ s := rfl

theorem guard_of_true {p : Prop} [Decidable p] (h : p) (s : List Char) :
    (guard p : Reader Unit) s = some ((), s) := by
  unfold guard
  rw [if_pos h]
  rfl

theorem skipBlanks_of_head? (h : ∀ c ∈ s.head?, isBlank c = false) :
    skipBlanks s = some ((), s) := by
  show some ((), trimStart s) = _
  rw [trimStart_eq_self_iff.mpr h]

theorem skipBlanks_cons (hc : isBlank c = false) (t : List Char) :
    skipBlanks (c :: t) = some ((), c :: t) :=
  skipBlanks_of_head? (by simpa using hc)

theorem mark_cons (hc : isBlank c = false) (t : List Char) : mark c (c :: t) = some ((), t) := by
  unfold mark
  refine (bind_of_eq_some (skipBlanks_cons hc t)).trans ?_
  refine (bind_get _ _).trans ?_
  exact bind_of_eq_some (guard_of_true rfl _)

/-! ### Numbers -/

theorem isDigit_of_mem_padded (h : c ∈ padded w n) : c.isDigit = true := by
  unfold padded at h
  rcases List.mem_append.mp h with h | h
  · rw [List.eq_of_mem_replicate h]
    rfl
  · exact Nat.isDigit_of_mem_toDigits (by decide) (by decide) h

theorem padded_ne_nil (w n : Nat) : padded w n ≠ [] := by
  unfold padded
  simp [Nat.toDigits_ne_nil]

theorem length_padded (hw : 0 < w) (hn : n < 10 ^ w) : (padded w n).length = w := by
  have := (Nat.length_toDigits_le_iff (by decide) hw).mpr hn
  unfold padded
  rw [List.length_append, List.length_replicate]
  omega

@[simp] theorem ofDigitChars_padded (w n : Nat) : Nat.ofDigitChars 10 (padded w n) 0 = n := by
  unfold padded
  rw [Nat.ofDigitChars_append, Nat.ofDigitChars_replicate_zero]
  simp [Nat.ofDigitChars_ten_toDigits]

theorem isBlank_head?_padded (w n : Nat) (t : List Char) :
    ∀ c ∈ (padded w n ++ t).head?, isBlank c = false := by
  intro c hc
  rw [List.head?_append_of_ne_nil _ (padded_ne_nil w n)] at hc
  exact isBlank_eq_false_of_isDigit (isDigit_of_mem_padded (List.mem_of_mem_head? hc))

/-- Digits are taken up to the limit. -/
theorem digits_of_length (hne : s ≠ []) (hs : ∀ c ∈ s, c.isDigit = true) (t : List Char) :
    digits (some s.length) (s ++ t) = some (s, t) := by
  have htake : ((s ++ t).take s.length).takeWhile Char.isDigit = s := by
    rw [List.take_left' rfl, List.takeWhile_eq_self_iff.mpr hs]
  unfold digits
  refine (bind_get _ _).trans ?_
  rw [Option.getD_some, htake]
  refine (bind_of_eq_some (guard_of_true hne _)).trans ?_
  show some (s, (s ++ t).drop s.length) = _
  rw [List.drop_left' rfl]

/-- Without a limit, digits are taken up to something else. -/
theorem digits_of_cons (hne : s ≠ []) (hs : ∀ c ∈ s, c.isDigit = true) (hc : c.isDigit = false)
    (t : List Char) : digits none (s ++ c :: t) = some (s, c :: t) := by
  have htake : ((s ++ c :: t).take (s ++ c :: t).length).takeWhile Char.isDigit = s := by
    rw [List.take_length, List.takeWhile_append_of_pos hs, List.takeWhile_cons_of_neg (by simp [hc]),
      List.append_nil]
  unfold digits
  refine (bind_get _ _).trans ?_
  rw [Option.getD_none, htake]
  refine (bind_of_eq_some (guard_of_true hne _)).trans ?_
  show some (s, (s ++ c :: t).drop s.length) = _
  rw [List.drop_left' rfl]

theorem twoDigits_padded (hn : n < 100) (t : List Char) :
    twoDigits (padded 2 n ++ t) = some (n, t) := by
  have hdigits := digits_of_length (padded_ne_nil 2 n) (fun _ => isDigit_of_mem_padded) t
  rw [length_padded (by decide) hn] at hdigits
  unfold twoDigits
  refine (bind_of_eq_some (skipBlanks_of_head? (isBlank_head?_padded 2 n t))).trans ?_
  refine (bind_of_eq_some hdigits).trans ?_
  show some (Nat.ofDigitChars 10 (padded 2 n) 0, t) = _
  rw [ofDigitChars_padded]

/-! ### The parts of a timestamp -/

theorem ne_cons_of_isDigit_eq_false (hc : c.isDigit = false) (w n : Nat) (s t : List Char) :
    padded w n ++ s ≠ c :: t := fun h => by
  have hhead := congrArg List.head? h
  rw [List.head?_append_of_ne_nil _ (padded_ne_nil w n)] at hhead
  have := isDigit_of_mem_padded (List.mem_of_mem_head? hhead)
  rw [hc] at this
  cases this

theorem year_yearText (y : Int) (t : List Char) :
    year (yearText y ++ '-' :: t) = some (y, '-' :: t) := by
  have hsigned := digits_of_cons (padded_ne_nil 4 y.natAbs) (fun _ => isDigit_of_mem_padded)
    (c := '-') (by decide) t
  unfold year yearText
  split_ifs with hy hneg
  · have hdigits := digits_of_length (padded_ne_nil 4 y.toNat) (fun _ => isDigit_of_mem_padded)
      ('-' :: t)
    rw [length_padded (by decide) (by omega)] at hdigits
    refine (bind_of_eq_some (skipBlanks_of_head? (isBlank_head?_padded 4 _ _))).trans ?_
    refine (bind_get _ _).trans ?_
    refine (congrFun (g := (do return Nat.ofDigitChars 10 (← digits (some 4)) 0 : Reader Int)) ?_
      _).trans ?_
    · split
      · next h => exact (ne_cons_of_isDigit_eq_false (by decide) _ _ _ _ h).elim
      · next h => exact (ne_cons_of_isDigit_eq_false (by decide) _ _ _ _ h).elim
      · rfl
    · refine (bind_of_eq_some hdigits).trans ?_
      show some ((Nat.ofDigitChars 10 (padded 4 y.toNat) 0 : Int), '-' :: t) = _
      rw [ofDigitChars_padded, Int.toNat_of_nonneg hy.1]
  · refine (bind_of_eq_some (skipBlanks_cons (by decide) _)).trans ?_
    refine (bind_get _ _).trans ?_
    refine (bind_set _ _ _).trans ?_
    refine (bind_of_eq_some hsigned).trans ?_
    show some (-(Nat.ofDigitChars 10 (padded 4 y.natAbs) 0 : Int), '-' :: t) = _
    rw [ofDigitChars_padded, Int.ofNat_natAbs_of_nonpos (by omega), Int.neg_neg]
  · refine (bind_of_eq_some (skipBlanks_cons (by decide) _)).trans ?_
    refine (bind_get _ _).trans ?_
    refine (bind_set _ _ _).trans ?_
    refine (bind_of_eq_some hsigned).trans ?_
    show some ((Nat.ofDigitChars 10 (padded 4 y.natAbs) 0 : Int), '-' :: t) = _
    rw [ofDigitChars_padded, Int.natAbs_of_nonneg (by omega)]

/-- A fraction written with so many digits that the others are zeros. -/
theorem fraction_padded (hw : 0 < w) (hn : n < 10 ^ w) (hle : w ≤ 9) (t : List Char) :
    fraction ('.' :: padded w n ++ 'Z' :: t) = some (n * 10 ^ (9 - w), 'Z' :: t) := by
  have htake : (padded w n ++ List.replicate 9 '0').take 9 =
      padded w n ++ List.replicate (9 - w) '0' := by
    rw [List.take_append, length_padded hw hn, List.take_of_length_le
      (by rw [length_padded hw hn]; exact hle), List.take_replicate]
    congr 2
    omega
  have hdigits := digits_of_cons (padded_ne_nil w n) (fun _ => isDigit_of_mem_padded)
    (c := 'Z') (by decide) t
  unfold fraction
  refine (bind_get _ _).trans ?_
  refine (bind_set _ _ _).trans ?_
  refine (bind_of_eq_some hdigits).trans ?_
  show some (Nat.ofDigitChars 10 ((padded w n ++ List.replicate 9 '0').take 9) 0, 'Z' :: t) = _
  rw [htake, Nat.ofDigitChars_append, ofDigitChars_padded, Nat.ofDigitChars_replicate_zero,
    Nat.mul_comm]

theorem fraction_fractionText (hn : n < 1000000000) (t : List Char) :
    fraction (fractionText n ++ 'Z' :: t) = some (n, 'Z' :: t) := by
  unfold fractionText
  split_ifs with h0 h6 h3
  · subst h0
    rfl
  · rw [fraction_padded (by decide) (by omega) (by decide)]
    congr 2
    omega
  · rw [fraction_padded (by decide) (by omega) (by decide)]
    congr 2
    omega
  · rw [fraction_padded (by decide) (by omega) (by decide)]
    simp

/-! ### The whole timestamp -/

/-- In UTC the hours and minutes are those of the day. -/
theorem settle_utc {d : Date} {m : Nat} (hm : m < 1440) :
    settle d ((60 * (m / 60) + m % 60 : Nat) - 0) = (d, m) := by
  rw [Nat.div_add_mod]
  unfold settle
  rw [if_neg (by omega), if_neg (by omega)]
  simp

/-- **A timestamp is read back.** -/
theorem parse?_render {t : Timestamp} (h : t.Valid) : parse? t.render = some t := by
  obtain ⟨⟨y, month, day⟩, minute, second, nano⟩ := t
  obtain ⟨hdate, hminute, hsecond, hnano⟩ := h
  obtain ⟨-, -, hmonth, -, hday⟩ := id hdate
  dsimp only at hminute hsecond hnano hmonth hday
  have hday' : day < 100 := by
    have : Date.daysIn y month ≤ 31 := by
      unfold Date.daysIn
      split <;> try split
      all_goals omega
    omega
  have hguard : (⟨y, month, day⟩ : Date).Valid ∧ minute / 60 < 24 ∧ minute % 60 < 60 ∧
      second ≤ 60 ∧ -1440 < (0 : Int) ∧ (0 : Int) < 1440 :=
    ⟨hdate, by omega, by omega, hsecond, by decide, by decide⟩
  have hread : reader (yearText y ++ '-' :: (padded 2 month ++ '-' :: (padded 2 day ++ 'T' ::
      (padded 2 (minute / 60) ++ ':' :: (padded 2 (minute % 60) ++ ':' :: (padded 2 second ++
        (fractionText nano ++ ['Z']))))))) = some (⟨⟨y, month, day⟩, minute, second, nano⟩, []) := by
    unfold reader
    refine (bind_of_eq_some (year_yearText y _)).trans ?_
    refine (bind_of_eq_some (mark_cons (by decide) _)).trans ?_
    refine (bind_of_eq_some (twoDigits_padded (by omega) _)).trans ?_
    refine (bind_of_eq_some (mark_cons (by decide) _)).trans ?_
    refine (bind_of_eq_some (twoDigits_padded hday' _)).trans ?_
    refine (bind_get _ _).trans ?_
    refine (bind_of_eq_some (guard_of_true (by decide) _)).trans ?_
    refine (bind_set _ _ _).trans ?_
    refine (bind_of_eq_some (twoDigits_padded (by omega) _)).trans ?_
    refine (bind_of_eq_some (mark_cons (by decide) _)).trans ?_
    refine (bind_of_eq_some (twoDigits_padded (by omega) _)).trans ?_
    refine (bind_of_eq_some (mark_cons (by decide) _)).trans ?_
    refine (bind_of_eq_some (twoDigits_padded (by omega) _)).trans ?_
    refine (bind_of_eq_some (fraction_fractionText hnano [])).trans ?_
    refine (bind_of_eq_some (skipBlanks_cons (by decide) [])).trans ?_
    refine (bind_of_eq_some (rfl : offset ['Z'] = some (0, []))).trans ?_
    refine (bind_of_eq_some (skipBlanks_of_head? (s := []) (by simp))).trans ?_
    refine (bind_of_eq_some (guard_of_true hguard _)).trans ?_
    dsimp only
    rw [settle_utc hminute]
    exact bind_of_eq_some (guard_of_true hdate _)
  unfold parse? render dateText timeText
  simp only [String.toList_ofList, List.append_assoc, List.cons_append, hread]

end ProofTracker.Timestamp
