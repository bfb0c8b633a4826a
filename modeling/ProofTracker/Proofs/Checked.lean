import Mathlib.Data.List.Forall2

/-! # Steps that may fail

A row of steps succeeds iff each of them does (`bind_eq_ok_iff`), a list of them iff every single
one does (`mapM_eq_ok_iff`), and what each step keeps holds in the end (`of_foldlM_eq_ok`). Steps
that commute may be done in any order (`exists_foldlM_of_perm`). Steps behind a complaint succeed iff
there is no reason for it (`if_throw_eq_ok_iff`, `unless_throw_eq_ok_iff`). A loop is taken round by
round (`rounds`). -/

namespace ProofTracker

variable {ε α β : Type} {x : Except ε α} {f : α → Except ε β} {b : β} {l : List α} {m : List β}

theorem bind_eq_ok_iff : (x >>= f) = .ok b ↔ ∃ a, x = .ok a ∧ f a = .ok b := by
  cases x <;> simp [bind, Except.bind]

theorem pure_eq_ok_iff {a a' : α} : (pure a : Except ε α) = .ok a' ↔ a = a' := by
  simp [pure, Except.pure]

theorem throw_ne_ok (e : ε) : (throw e : Except ε β) ≠ .ok b := by
  rintro ⟨⟩

theorem if_throw_eq_ok_iff {p : Prop} [Decidable p] {e : ε} {y : Except ε β} :
    (if p then throw e >>= f else y) = .ok b ↔ ¬p ∧ y = .ok b := by
  by_cases h : p <;> simp [h, throw, throwThe, MonadExceptOf.throw, bind, Except.bind]

theorem unless_throw_eq_ok_iff {p : Prop} [Decidable p] {e : ε} {y : Except ε β} :
    (if p then y else throw e >>= f) = .ok b ↔ p ∧ y = .ok b := by
  by_cases h : p <;> simp [h, throw, throwThe, MonadExceptOf.throw, bind, Except.bind]

theorem if_throw_eq_error_iff {p : Prop} [Decidable p] {e e' : ε} {y : Except ε β} :
    (if p then throw e >>= f else y) = .error e' ↔ p ∧ e = e' ∨ ¬p ∧ y = .error e' := by
  by_cases h : p <;> simp [h, throw, throwThe, MonadExceptOf.throw, bind, Except.bind]

theorem unless_throw_eq_error_iff {p : Prop} [Decidable p] {e e' : ε} {y : Except ε β} :
    (if p then y else throw e >>= f) = .error e' ↔ ¬p ∧ e = e' ∨ p ∧ y = .error e' := by
  by_cases h : p <;> simp [h, throw, throwThe, MonadExceptOf.throw, bind, Except.bind]

theorem bind_eq_error_iff {e : ε} :
    (x >>= f) = .error e ↔ x = .error e ∨ ∃ a, x = .ok a ∧ f a = .error e := by
  cases x <;> simp [bind, Except.bind]

theorem exists_error_iff : (∃ e, x = .error e) ↔ ¬ ∃ a, x = .ok a := by
  cases x <;> simp

/-- What one of the steps complains about. -/
theorem exists_of_mapM_eq_error {e : ε} (h : l.mapM f = .error e) : ∃ a ∈ l, f a = .error e := by
  induction l with
  | nil => cases h
  | cons a l ih =>
    rw [List.mapM_cons, bind_eq_error_iff] at h
    rcases h with h | ⟨b, -, h⟩
    · exact ⟨a, List.mem_cons_self, h⟩
    · rcases bind_eq_error_iff.mp h with h | ⟨bs, -, h⟩
      · obtain ⟨a', ha', he⟩ := ih h
        exact ⟨a', List.mem_cons_of_mem _ ha', he⟩
      · cases h

/-- **What every step keeps, a row of steps keeps.** -/
theorem of_foldlM_eq_ok {g : β → α → Except ε β} {P : β → Prop} {b' : β} (hb : P b)
    (hg : ∀ a ∈ l, ∀ b b', P b → g b a = .ok b' → P b') (h : l.foldlM g b = .ok b') : P b' := by
  induction l generalizing b with
  | nil =>
    rw [List.foldlM_nil, pure_eq_ok_iff] at h
    exact h ▸ hb
  | cons a l ih =>
    rw [List.foldlM_cons, bind_eq_ok_iff] at h
    obtain ⟨b₁, h₁, h⟩ := h
    exact ih (hg a List.mem_cons_self b b₁ hb h₁)
      (fun a ha => hg a (List.mem_cons_of_mem _ ha)) h

theorem mapM_eq_ok_iff : l.mapM f = .ok m ↔ List.Forall₂ (fun a b => f a = .ok b) l m := by
  induction l generalizing m with
  | nil =>
    rw [List.mapM_nil, pure_eq_ok_iff]
    constructor
    · rintro rfl; exact .nil
    · rintro ⟨⟩; rfl
  | cons a l ih =>
    simp only [List.mapM_cons, bind_eq_ok_iff, pure_eq_ok_iff, ih]
    constructor
    · rintro ⟨b, hb, bs, hbs, rfl⟩; exact .cons hb hbs
    · rintro (_ | ⟨hb, hbs⟩); exact ⟨_, hb, _, hbs, rfl⟩

theorem exists_of_mem_mapM (h : l.mapM f = .ok m) (hb : b ∈ m) : ∃ a ∈ l, f a = .ok b := by
  rw [mapM_eq_ok_iff] at h
  induction h with
  | nil => cases hb
  | cons hab _ ih =>
    rcases List.mem_cons.mp hb with rfl | hb
    · exact ⟨_, List.mem_cons_self, hab⟩
    · obtain ⟨a, ha, hfa⟩ := ih hb
      exact ⟨a, List.mem_cons_of_mem _ ha, hfa⟩

theorem exists_ok_of_mem_mapM {a : α} (h : l.mapM f = .ok m) (ha : a ∈ l) : ∃ b, f a = .ok b := by
  rw [mapM_eq_ok_iff] at h
  induction h with
  | nil => cases ha
  | cons hab _ ih =>
    rcases List.mem_cons.mp ha with rfl | ha
    · exact ⟨_, hab⟩
    · exact ih ha

/-- A step that maps the values that pass a test, done for each member of a list. -/
theorem mapM_eq_ok_iff_map {g : α → β} {p : α → Prop}
    (h : ∀ a b, f a = .ok b ↔ g a = b ∧ p a) : l.mapM f = .ok m ↔ l.map g = m ∧ ∀ a ∈ l, p a := by
  rw [mapM_eq_ok_iff]
  simp only [h]
  constructor
  · intro hl
    induction hl with
    | nil => simp
    | cons hab _ ih => simpa [hab.1, hab.2] using ih
  · rintro ⟨rfl, hp⟩
    rw [List.forall₂_map_right_iff, List.forall₂_same]
    exact fun a ha => ⟨rfl, hp a ha⟩

theorem mapM_of_forall₂ {l' : List α}
    (h : List.Forall₂ (fun a a' => ∀ b, f a = .ok b → f a' = .ok b) l l')
    (hm : l.mapM f = .ok m) : l'.mapM f = .ok m := by
  induction h generalizing m with
  | nil => exact hm
  | cons ha _ ih =>
    simp only [List.mapM_cons, bind_eq_ok_iff] at hm ⊢
    obtain ⟨b, hb, bs, hbs, hm⟩ := hm
    exact ⟨b, ha b hb, bs, ih hbs, hm⟩

/-! ### Steps in another order -/

section Order

variable {g : β → α → Except ε β} {l' : List α} {c : β}

theorem foldlM_of_forall₂ (h : List.Forall₂ (fun a a' => ∀ b c, g b a = .ok c → g b a' = .ok c) l l')
    (hc : l.foldlM g b = .ok c) : l'.foldlM g b = .ok c := by
  induction h generalizing b with
  | nil => exact hc
  | cons ha _ ih =>
    rw [List.foldlM_cons, bind_eq_ok_iff] at hc ⊢
    obtain ⟨b₁, h₁, hc⟩ := hc
    exact ⟨b₁, ha b b₁ h₁, ih hc⟩

variable {R : β → β → Prop} (hrefl : ∀ b, R b b) (htrans : ∀ {b c d}, R b c → R c d → R b d)
  (hstep : ∀ a {b b' c}, R b b' → g b a = .ok c → ∃ c', g b' a = .ok c' ∧ R c c')

include hstep in
theorem exists_foldlM_of_rel {b' : β} (hb : R b b') (h : l.foldlM g b = .ok c) :
    ∃ c', l.foldlM g b' = .ok c' ∧ R c c' := by
  induction l generalizing b b' with
  | nil =>
    rw [List.foldlM_nil, pure_eq_ok_iff] at h
    exact ⟨b', rfl, h ▸ hb⟩
  | cons a l ih =>
    rw [List.foldlM_cons, bind_eq_ok_iff] at h
    obtain ⟨b₁, h₁, h⟩ := h
    obtain ⟨b₁', h₁', hb₁⟩ := hstep a hb h₁
    obtain ⟨c', hc', hc⟩ := ih hb₁ h
    exact ⟨c', by rw [List.foldlM_cons, bind_eq_ok_iff]; exact ⟨b₁', h₁', hc'⟩, hc⟩

include hrefl htrans hstep in
/-- **Steps that commute with each other may be done in any order**, as far as `R` tells what they
lead to apart. -/
theorem exists_foldlM_of_perm {D : α → α → Prop} (hsymm : ∀ {a a'}, D a a' → D a' a)
    (hcomm : ∀ {a a' b b₁ c}, D a a' → g b a = .ok b₁ → g b₁ a' = .ok c →
      ∃ b₂ c', g b a' = .ok b₂ ∧ g b₂ a = .ok c' ∧ R c c')
    (hp : l.Perm l') (hd : l.Pairwise D) (h : l.foldlM g b = .ok c) :
    ∃ c', l'.foldlM g b = .ok c' ∧ R c c' := by
  induction hp generalizing b c with
  | nil => exact ⟨c, h, hrefl c⟩
  | cons a _ ih =>
    rw [List.foldlM_cons, bind_eq_ok_iff] at h
    obtain ⟨b₁, h₁, h⟩ := h
    obtain ⟨c', hc', hc⟩ := ih (List.pairwise_cons.mp hd).2 h
    exact ⟨c', by rw [List.foldlM_cons, bind_eq_ok_iff]; exact ⟨b₁, h₁, hc'⟩, hc⟩
  | swap a a' l =>
    simp only [List.foldlM_cons, bind_eq_ok_iff] at h ⊢
    obtain ⟨b₁, h₁, b₂, h₂, h⟩ := h
    have hne : D a' a := (List.pairwise_cons.mp hd).1 a List.mem_cons_self
    obtain ⟨d₁, d₂, hd₁, hd₂, hR⟩ := hcomm hne h₁ h₂
    obtain ⟨c', hc', hc⟩ := exists_foldlM_of_rel hstep hR h
    exact ⟨c', ⟨d₁, hd₁, d₂, hd₂, hc'⟩, hc⟩
  | trans hp₁ _ ih₁ ih₂ =>
    obtain ⟨c₁, hc₁, hR₁⟩ := ih₁ hd h
    obtain ⟨c₂, hc₂, hR₂⟩ := ih₂ ((hp₁.pairwise_iff hsymm).mp hd) hc₁
    exact ⟨c₂, hc₂, htrans hR₁ hR₂⟩

end Order

/-! ### Rounds of a loop -/

/-- So many rounds of a loop. -/
def rounds {m : Type → Type} [Monad m] {σ : Type} (round : σ → m σ) : Nat → σ → m σ
  | 0, s => pure s
  | n + 1, s => round s >>= rounds round n

theorem rounds_add {m : Type → Type} [Monad m] [LawfulMonad m] {σ : Type} (round : σ → m σ)
    (k n : Nat) (s : σ) : rounds round (k + n) s = rounds round k s >>= rounds round n := by
  induction k generalizing s with
  | zero => rw [Nat.zero_add, rounds, pure_bind]
  | succ k ih =>
    rw [Nat.add_right_comm, rounds, rounds, bind_assoc]
    exact bind_congr ih

/-- A loop fails, if at all, in the one round that cannot be made. -/
theorem eq_of_rounds_eq_error {round : α → Except ε α} {s t : α} {e e' : ε} {k n : Nat}
    (hk : rounds round k s = .ok t) (he : round t = .error e)
    (hn : rounds round n s = .error e') : e' = e := by
  rcases Nat.lt_or_ge k n with hlt | hle
  · obtain ⟨m, rfl⟩ : ∃ m, n = k + (m + 1) := ⟨n - k - 1, by omega⟩
    rw [rounds_add, hk] at hn
    change round t >>= rounds round m = .error e' at hn
    rw [he] at hn
    exact (Except.error.inj hn).symm
  · obtain ⟨m, rfl⟩ := Nat.exists_eq_add_of_le hle
    rw [rounds_add, hn] at hk
    cases hk

end ProofTracker
