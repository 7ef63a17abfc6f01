import LoopTrace.Proofs.Holders

/-!
# What a refused call costs

Binding, releasing and giving back look at all that can speak against them before they change anything,
so a refusal leaves the pool as it was. Asking for the slot of a value does not: a slot is handed out
first and bound then. If it cannot be bound, the call is refused and the slot stays handed out although
nobody has it. Such a request is refused if its value has been released, and if a caller has bound the
slot that the pool hands out (`Exclusive.allocateFor_refused_iff`).

So a refused call leaves everything as it was exactly if it does not ask for the slot of a value
(`run_forfeits`). A value that is asked for once more after its release is enough to lose a slot
(`refusal_forfeits_slot`).
-/

namespace LoopTrace.Pool

/-- A slot has been handed out and nobody has it; all else is as it was. -/
inductive Warded.Forfeits (w : Warded) (kind : Kind) : Warded → Prop where
  /-- One that was to be handed out again. -/
  | pooled (s : Slot) (free : s ∈ w.pool.free) (kind_eq : s.kind = kind) :
    w.Forfeits kind ⟨{ w.pool with free := w.pool.free.erase s }, w.taken⟩
  /-- A new one. -/
  | minted : w.Forfeits kind ⟨{ w.pool with next := w.pool.next + 1 }, w.taken⟩

namespace Warded

variable {w w' : Warded} {request : Request} {why : Misuse} {v : ValueId} {s : Slot} {kind : Kind}
  {mode : Mode}

theorem Forfeits.ne (h : w.Forfeits kind w') : w' ≠ w := by
  intro he
  cases h with
  | pooled s hs =>
    have hf : w.pool.free.erase s = w.pool.free := congrArg (·.pool.free) he
    have hl := congrArg List.length hf
    rw [List.length_erase_of_mem hs] at hl
    have hpos := List.length_pos_of_mem hs
    omega
  | minted =>
    have hn : w.pool.next + 1 = w.pool.next := congrArg (·.pool.next) he
    omega

theorem forfeits_allocate (w : Warded) (kind : Kind) (mode : Mode) :
    w.Forfeits kind ⟨(w.pool.allocate kind mode).2, w.taken⟩ := by
  rcases allocate_cases w.pool kind mode with ⟨s, ha, -, hs, hk⟩ | ha <;> rw [ha]
  · exact .pooled s hs hk
  · exact .minted

/-! ### Calls that look first -/

theorem answer_bind_refused (h : (w.answer (.bind v s)).1 = .refused why) :
    (w.answer (.bind v s)).2 = w := by
  rw [answer] at h ⊢
  cases hb : w.bind v s with
  | error e => rfl
  | ok w' => simp [hb] at h

theorem answer_release_refused (h : (w.answer (.release v)).1 = .refused why) :
    (w.answer (.release v)).2 = w := by
  rw [answer] at h ⊢
  cases hr : w.release v with
  | error e => rfl
  | ok r => simp [hr] at h

theorem answer_recycle_refused (h : (w.answer (.recycle s)).1 = .refused why) :
    (w.answer (.recycle s)).2 = w := by
  rw [answer] at h ⊢
  cases hr : w.recycle s with
  | error e => rfl
  | ok w' => simp [hr] at h

/-! ### The call that hands out first -/

/-- When the slot of a value is refused, the slot that was to be bound is gone. -/
theorem answer_allocateFor_refused (h : (w.answer (.allocateFor v kind mode)).1 = .refused why) :
    (w.answer (.allocateFor v kind mode)).2 = ⟨(w.pool.allocate kind mode).2, w.taken⟩ := by
  rw [answer, allocateFor] at h ⊢
  cases hl : w.pool.lookup v with
  | some s => simp [hl] at h
  | none =>
    cases hb : bind ⟨(w.pool.allocate kind mode).2, w.taken⟩ v (w.pool.allocate kind mode).1 with
    | error e => simp only [hb]
    | ok w' => simp [hl, hb] at h

/-- Binding is refused if the value has been released or has a slot, and if the slot is taken. -/
theorem bind_refused_iff :
    (∃ why, w.bind v s = .error why) ↔
      v ∈ w.pool.released ∨ (w.pool.lookup v).isSome ∨ s ∈ w.taken := by
  rw [bind]
  split_ifs with hv hl hs
  · exact ⟨fun _ => Or.inl hv, fun _ => ⟨_, rfl⟩⟩
  · exact ⟨fun _ => Or.inr (Or.inl hl), fun _ => ⟨_, rfl⟩⟩
  · exact ⟨fun _ => Or.inr (Or.inr hs), fun _ => ⟨_, rfl⟩⟩
  · refine ⟨by simp, fun h => ?_⟩
    rcases h with h | h | h
    · exact absurd h hv
    · exact absurd h hl
    · exact absurd h hs

/-- What a refusal means for the pool and its set. -/
structure Forfeiting (w : Warded) : Prop where
  /-- Everything stays as it was, unless the slot of a value was asked for. -/
  unchanged : ∀ request why, (w.answer request).1 = .refused why →
    ((w.answer request).2 = w ↔ ∀ v kind mode, request ≠ .allocateFor v kind mode)
  /-- Otherwise a slot of the kind asked for is lost. -/
  forfeits : ∀ v kind mode why, (w.answer (.allocateFor v kind mode)).1 = .refused why →
    w.Forfeits kind (w.answer (.allocateFor v kind mode)).2
  /-- It happens to values that have been released, and if the slot to hand out is taken. -/
  refused_iff : ∀ v kind mode, (∃ why, (w.answer (.allocateFor v kind mode)).1 = .refused why) ↔
    v ∈ w.pool.released ∨ w.pool.lookup v = none ∧ (w.pool.allocate kind mode).1 ∈ w.taken

end Warded

variable {p : Pool}

theorem Exclusive.allocateFor_refused_iff (hp : p.Exclusive) (taken : Finset Slot) (v : ValueId)
    (kind : Kind) (mode : Mode) :
    (∃ why, ((⟨p, taken⟩ : Warded).answer (.allocateFor v kind mode)).1 = .refused why) ↔
      v ∈ p.released ∨ p.lookup v = none ∧ (p.allocate kind mode).1 ∈ taken := by
  rw [Warded.answer, Warded.allocateFor]
  cases hl : p.lookup v with
  | some s =>
    have hv : v ∉ p.released := fun hv => by simp [hp.released v hv] at hl
    simp [hv]
  | none =>
    have hbind := Warded.bind_refused_iff (w := ⟨(p.allocate kind mode).2, taken⟩) (v := v)
      (s := (p.allocate kind mode).1)
    have hlq : (p.allocate kind mode).2.lookup v = none := by
      rw [lookup, bindings_allocate]
      exact hl
    rw [released_allocate, hlq] at hbind
    simp only [true_and, Option.isSome_none, Bool.false_eq_true, false_or] at hbind ⊢
    rw [← hbind]
    cases Warded.bind ⟨(p.allocate kind mode).2, taken⟩ v (p.allocate kind mode).1 <;> simp

theorem Exclusive.forfeiting (hp : p.Exclusive) (taken : Finset Slot) :
    (⟨p, taken⟩ : Warded).Forfeiting := by
  have hforfeits : ∀ v kind mode why,
      ((⟨p, taken⟩ : Warded).answer (.allocateFor v kind mode)).1 = .refused why →
      (⟨p, taken⟩ : Warded).Forfeits kind
        ((⟨p, taken⟩ : Warded).answer (.allocateFor v kind mode)).2 := fun v kind mode why h => by
    rw [Warded.answer_allocateFor_refused h]
    exact Warded.forfeits_allocate ⟨p, taken⟩ kind mode
  refine ⟨fun request why h => ?_, hforfeits, hp.allocateFor_refused_iff taken⟩
  cases request with
  | allocate kind mode => cases h
  | lookup v =>
    refine iff_of_true ?_ (by simp)
    rw [Warded.answer]
    split <;> rfl
  | bind v s => exact iff_of_true (Warded.answer_bind_refused h) (by simp)
  | release v => exact iff_of_true (Warded.answer_release_refused h) (by simp)
  | recycle s => exact iff_of_true (Warded.answer_recycle_refused h) (by simp)
  | allocateFor v kind mode =>
    exact iff_of_false (hforfeits v kind mode why h).ne fun hne => hne v kind mode rfl

/-- **What refusals cost**: after any calls of a new pool, a refused call leaves the bindings, the slots
that are taken, the released values, the slots to hand out again and the number of the next slot as they
were exactly if it does not ask for the slot of a value. If it does, one slot of the kind asked for is
lost and all else stays. -/
theorem run_forfeits (reuse : Bool) (requests : List Request) :
    ∃ taken, (⟨{ reuse }, ∅⟩ : Warded).run requests =
        ((({ reuse } : Pool).run requests).1, ⟨(({ reuse } : Pool).run requests).2, taken⟩) ∧
      (⟨(({ reuse } : Pool).run requests).2, taken⟩ : Warded).Forfeiting := by
  have hnew := exclusive_new reuse
  exact ⟨_, Warded.run_of hnew requests, (hnew.run requests).forfeiting _⟩

/-- A value that is read, defined, and then asked for again. -/
def revisited : List Request := [.allocateFor ⟨0⟩ .int .shared, .release ⟨0⟩]

/-- A released value is refused, and the slot that it had is handed out to nobody: it cannot be handed out
again. Without reuse it is a new slot that is lost. -/
theorem refusal_forfeits_slot :
    ((({} : Pool).run revisited).2.answer (.allocateFor ⟨0⟩ .int .shared)) =
        (.refused (.readAfterRelease ⟨0⟩), { next := 1, released := [⟨0⟩] }) ∧
      (({} : Pool).run revisited).2 = { next := 1, free := [⟨.int, 0⟩], released := [⟨0⟩] } ∧
      ((({ reuse := false } : Pool).run revisited).2.answer (.allocateFor ⟨0⟩ .int .shared)).1 =
        .refused (.readAfterRelease ⟨0⟩) ∧
      (({ reuse := false } : Pool).run revisited).2.next = 1 ∧
      ((({ reuse := false } : Pool).run revisited).2.answer
        (.allocateFor ⟨0⟩ .int .shared)).2.next = 2 := by
  decide

end LoopTrace.Pool
