/-!
# Tables

Lists of pairs, read as tables: the entry that counts is the first one with the key. Slots are bound
to values in such a table, blocks are filed under their ids in one, and the sets of live slots are
kept in one.
-/

namespace LoopTrace

section Lookup

variable {α β : Type} [DecidableEq α]

theorem mem_of_lookup {l : List (α × β)} {a : α} {b : β} (h : l.lookup a = some b) :
    (a, b) ∈ l := by
  obtain ⟨l₁, l₂, rfl, -⟩ := List.lookup_eq_some_iff.1 h
  simp

/-- If no key occurs twice, every entry counts. -/
theorem lookup_of_mem {l : List (α × β)} (h : (l.map Prod.fst).Nodup) {a : α} {b : β}
    (hm : (a, b) ∈ l) : l.lookup a = some b := by
  obtain ⟨l₁, l₂, rfl⟩ := List.append_of_mem hm
  refine List.lookup_eq_some_iff.2 ⟨l₁, l₂, rfl, fun e he => ?_⟩
  rw [List.map_append, List.nodup_append] at h
  exact bne_iff_ne.2 fun hk => h.2.2 e.1 (List.mem_map_of_mem he) a (by simp) hk.symm

theorem lookup_cons_eq (a : α) (b : β) (l : List (α × β)) (k : α) :
    ((a, b) :: l).lookup k = if k = a then some b else l.lookup k := by
  rw [List.lookup_cons]
  by_cases h : k = a
  · rw [if_pos h, beq_iff_eq.2 h]
  · rw [if_neg h, beq_false_of_ne h]

theorem lookup_filter_ne (l : List (α × β)) (a k : α) :
    (l.filter (·.1 ≠ a)).lookup k = if k = a then none else l.lookup k := by
  induction l with
  | nil => simp
  | cons e l ih =>
    obtain ⟨a', b⟩ := e
    rw [lookup_cons_eq]
    by_cases he : a' = a
    · rw [List.filter_cons_of_neg (by simp [he]), ih, he]
      split <;> rfl
    · rw [List.filter_cons_of_pos (by simp [he]), lookup_cons_eq, ih]
      by_cases hk : k = a
      · rw [if_pos hk, if_pos hk, if_neg fun h => he (h.symm.trans hk)]
      · rw [if_neg hk, if_neg hk]

/-- Entries are found under new keys if only one of the old keys has the new key that is looked up. -/
theorem lookup_map {α' γ : Type} [DecidableEq α'] {l : List (α × β)} (f : α → α') (g : β → γ) {k : α}
    (hk : ∀ e ∈ l, f e.1 = f k → e.1 = k) :
    (l.map fun e => (f e.1, g e.2)).lookup (f k) = (l.lookup k).map g := by
  induction l with
  | nil => rfl
  | cons e l ih =>
    have hiff : f k = f e.1 ↔ k = e.1 :=
      ⟨fun he => (hk e List.mem_cons_self he.symm).symm, congrArg f⟩
    rw [List.map_cons, lookup_cons_eq, ih fun e he => hk e (List.mem_cons_of_mem _ he),
      show e :: l = (e.1, e.2) :: l from rfl, lookup_cons_eq]
    by_cases he : k = e.1
    · rw [if_pos he, if_pos (hiff.2 he), Option.map_some]
    · rw [if_neg he, if_neg fun h => he (hiff.1 h)]

end Lookup

theorem nodup_eraseDups {α : Type} [DecidableEq α] (l : List α) : l.eraseDups.Nodup := by
  induction h : l.length using Nat.strongRecOn generalizing l with
  | _ n ih =>
    cases l with
    | nil => simp
    | cons a l =>
      rw [List.eraseDups_cons, List.nodup_cons]
      refine ⟨by simp, ih _ ?_ _ rfl⟩
      have := List.length_filter_le (fun b => !b == a) l
      simp only [List.length_cons] at h
      omega

/-- A check of every element of a list succeeds exactly if each of them passes. -/
theorem forM_eq_ok_iff {α ε : Type} {f : α → Except ε Unit} {l : List α} :
    l.forM f = .ok () ↔ ∀ x ∈ l, f x = .ok () := by
  induction l with
  | nil => simp [List.forM, pure, Except.pure]
  | cons x l ih =>
    rw [List.forM]
    cases hx : f x with
    | error e => simp [bind, Except.bind, hx]
    | ok u => simpa [bind, Except.bind, hx] using ih

/-- A failure comes from the first part or from the second one. -/
theorem eq_error_of_bind {ε α β : Type} {x : Except ε α} {f : α → Except ε β} {e : ε}
    (h : x >>= f = .error e) : x = .error e ∨ ∃ a, x = .ok a ∧ f a = .error e := by
  cases x with
  | error e' => exact Or.inl (congrArg Except.error (Except.error.inj h))
  | ok a => exact Or.inr ⟨a, rfl, h⟩

/-- A check of every element of a list that fails, fails at one of them. -/
theorem exists_of_forM_eq_error {ε α : Type} {f : α → Except ε Unit} {l : List α} {e : ε}
    (h : l.forM f = .error e) : ∃ a ∈ l, f a = .error e := by
  induction l with
  | nil => cases h
  | cons a l ih =>
    rcases eq_error_of_bind h with ha | ⟨-, -, hl⟩
    · exact ⟨a, List.mem_cons_self, ha⟩
    · obtain ⟨b, hb, he⟩ := ih hl
      exact ⟨b, List.mem_cons_of_mem a hb, he⟩

end LoopTrace
