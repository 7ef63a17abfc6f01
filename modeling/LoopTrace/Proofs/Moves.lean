import LoopTrace.Move.Basic
import LoopTrace.Proofs.Liveness
import LoopTrace.Proofs.Pool
import LoopTrace.Proofs.Steps
import Mathlib.Data.List.Nodup

/-!
# How moves are ordered

The steps of a schedule, as a relation between the moves that are pending and the steps that carry
them out (`Ordered`). A temporary is a slot that no pending move mentions, so saving a destination
makes the saved move ready, and the steps that are allowed for are enough (`order_gives`). What the
steps read before they write it, the moves read as well (`Ordered.mem_liveBefore`).
-/

namespace LoopTrace

namespace Move

/-! ### The next move -/

theorem sublist_middle (a b : List Move) (m : Move) : (a ++ b).Sublist (a ++ m :: b) :=
  (List.sublist_cons_self m b).append_left a

theorem isRead_iff {pending : List Move} {s : Slot} :
    isRead pending s = true ↔ ∃ m ∈ pending, m.source = .slot s := by
  simp [isRead]

theorem takeReady_eq_some {pending l others : List Move} {ready : Move}
    (h : takeReady pending l = some (ready, others)) :
    isRead pending ready.destination = false ∧ ∃ a b, l = a ++ ready :: b ∧ others = a ++ b := by
  induction l generalizing others with
  | nil => cases h
  | cons m l ih =>
    rw [takeReady] at h
    by_cases hm : isRead pending m.destination = true
    · rw [if_pos hm] at h
      obtain ⟨⟨m', others'⟩, h', he⟩ := Option.map_eq_some_iff.1 h
      obtain ⟨rfl, rfl⟩ := Prod.mk.inj he
      obtain ⟨hr, a, b, rfl, rfl⟩ := ih h'
      exact ⟨hr, m :: a, b, rfl, rfl⟩
    · rw [if_neg hm] at h
      obtain ⟨rfl, rfl⟩ := Prod.mk.inj (Option.some.inj h)
      exact ⟨by simpa using hm, [], _, rfl, rfl⟩

theorem takeReady_eq_none {pending l : List Move} (h : takeReady pending l = none) :
    ∀ m ∈ l, isRead pending m.destination = true := by
  induction l with
  | nil => exact fun m hm => absurd hm List.not_mem_nil
  | cons m l ih =>
    rw [takeReady] at h
    by_cases hm : isRead pending m.destination = true
    · rw [if_pos hm, Option.map_eq_none_iff] at h
      intro m' hm'
      rcases List.mem_cons.1 hm' with rfl | hm'
      · exact hm
      · exact ih h m' hm'
    · rw [if_neg hm] at h
      cases h

theorem mem_redirect {saved temporary : Slot} {pending : List Move} {m' : Move} :
    m' ∈ redirect saved temporary pending ↔
      ∃ m ∈ pending, m'.destination = m.destination ∧
        m'.source = if m.source = .slot saved then .slot temporary else m.source := by
  rw [redirect, List.mem_map]
  refine exists_congr fun m => and_congr_right fun _ => ?_
  obtain ⟨d, s⟩ := m
  obtain ⟨d', s'⟩ := m'
  by_cases h : s = .slot saved <;> simp [h, eq_comm]

/-- Only sources are redirected. -/
theorem map_destination_redirect (saved temporary : Slot) (pending : List Move) :
    (redirect saved temporary pending).map Move.destination = pending.map Move.destination := by
  rw [redirect, List.map_map]
  refine List.map_congr_left fun m _ => ?_
  rw [Function.comp]
  split <;> rfl

/-- A slot that has been saved is not read any more. -/
theorem isRead_redirect {saved temporary : Slot} (hne : temporary ≠ saved) (pending : List Move) :
    isRead (redirect saved temporary pending) saved = false := by
  rw [← Bool.not_eq_true, isRead_iff]
  rintro ⟨m', hm', he⟩
  obtain ⟨m, -, -, hs⟩ := mem_redirect.1 hm'
  rw [hs] at he
  split at he
  · exact hne (Operand.slot.inj he)
  · next h => exact h he

/-! ### How many steps there are -/

/-- How many steps ordering the moves takes at most: one for each, and one more for each that is not
ready. -/
def weight (pending : List Move) : Nat :=
  pending.length + pending.countP fun m => isRead pending m.destination

theorem weight_le (pending : List Move) : weight pending ≤ 2 * pending.length := by
  have h : pending.countP (fun m => isRead pending m.destination) ≤ pending.length :=
    List.countP_le_length
  rw [weight]
  omega

theorem weight_transfer {a b : List Move} {ready : Move} :
    weight (a ++ b) < weight (a ++ ready :: b) := by
  have hread : ∀ s, isRead (a ++ b) s = true → isRead (a ++ ready :: b) s = true := by
    intro s hs
    obtain ⟨m, hm, he⟩ := isRead_iff.1 hs
    exact isRead_iff.2 ⟨m, (sublist_middle a b ready).subset hm, he⟩
  have hmono : (a ++ b).countP (fun m => isRead (a ++ b) m.destination) ≤
      (a ++ b).countP fun m => isRead (a ++ ready :: b) m.destination :=
    List.countP_mono_left fun m _ => hread m.destination
  have hsub : (a ++ b).countP (fun m => isRead (a ++ ready :: b) m.destination) ≤
      (a ++ ready :: b).countP fun m => isRead (a ++ ready :: b) m.destination :=
    (sublist_middle a b ready).countP_le
  simp only [weight, List.length_append, List.length_cons] at hmono hsub ⊢
  omega

theorem weight_save {first : Move} {rest : List Move} {temporary : Slot}
    (hne : temporary ≠ first.destination)
    (hall : ∀ m ∈ first :: rest, isRead (first :: rest) m.destination = true) :
    weight (redirect first.destination temporary (first :: rest)) < weight (first :: rest) := by
  have hfull : (first :: rest).countP (fun m => isRead (first :: rest) m.destination) =
      (first :: rest).length :=
    List.countP_eq_length.2 hall
  have hlen : (redirect first.destination temporary (first :: rest)).length =
      (first :: rest).length := by
    rw [redirect, List.length_map]
  have hlt : (redirect first.destination temporary (first :: rest)).countP
      (fun m => isRead (redirect first.destination temporary (first :: rest)) m.destination) <
        (redirect first.destination temporary (first :: rest)).length := by
    refine Nat.lt_of_le_of_ne List.countP_le_length fun he => ?_
    have hfirst : ∃ m ∈ redirect first.destination temporary (first :: rest),
        m.destination = first.destination := by
      refine ⟨⟨first.destination,
        if first.source = .slot first.destination then .slot temporary else first.source⟩, ?_, rfl⟩
      exact mem_redirect.2 ⟨first, List.mem_cons_self, rfl, rfl⟩
    obtain ⟨m, hm, hd⟩ := hfirst
    have := List.countP_eq_length.1 he m hm
    rw [hd, isRead_redirect hne] at this
    cases this
  rw [weight, weight, hfull, ← hlen]
  omega

/-! ### Schedules -/

/-- The slots that moves mention have numbers below `n`. -/
def Below (n : Nat) (pending : List Move) : Prop :=
  ∀ m ∈ pending, m.destination.serial < n ∧ ∀ s, m.source = .slot s → s.serial < n

/-- The steps carry out the pending moves, with temporaries that are numbered from the first number
up to the second one. -/
inductive Ordered : Nat → List Move → List Step → Nat → Prop where
  | done (n : Nat) : Ordered n [] [] n
  | transfer {n o : Nat} {a b : List Move} {ready : Move} {steps : List Step}
      (unread : isRead (a ++ ready :: b) ready.destination = false)
      (rest : Ordered n (a ++ b) steps o) : Ordered n (a ++ ready :: b) (.transfer ready :: steps) o
  | save {n o : Nat} {pending : List Move} {first : Move} {steps : List Step}
      (mem : first ∈ pending) (read : isRead pending first.destination = true)
      (rest : Ordered (n + 1) (redirect first.destination ⟨first.destination.kind, n⟩ pending)
        steps o) :
      Ordered n pending (.save first.destination ⟨first.destination.kind, n⟩ :: steps) o

/-- The instructions that carry the steps out. -/
def stepCode (steps : List Step) : List Instruction := steps.map fun step => step.move.instruction

/-- The temporaries of the steps. -/
def temporaries (steps : List Step) : List Slot := steps.filterMap Step.temporary?

theorem Below.transfer {n : Nat} {a b : List Move} {ready : Move} (h : Below n (a ++ ready :: b)) :
    Below n (a ++ b) :=
  fun m hm => h m ((sublist_middle a b ready).subset hm)

theorem Below.redirect {n : Nat} {pending : List Move} (h : Below n pending) (saved : Slot)
    (kind : Kind) : Below (n + 1) (redirect saved ⟨kind, n⟩ pending) := by
  intro m' hm'
  obtain ⟨m, hm, hd, hs⟩ := mem_redirect.1 hm'
  refine ⟨hd ▸ Nat.lt_succ_of_lt (h m hm).1, fun s he => ?_⟩
  rw [hs] at he
  split at he
  · cases he
    exact Nat.lt_succ_self n
  · exact Nat.lt_succ_of_lt ((h m hm).2 s he)

theorem Ordered.le {n o : Nat} {pending : List Move} {steps : List Step}
    (h : Ordered n pending steps o) : n ≤ o := by
  induction h with
  | done n => exact Nat.le_refl n
  | transfer _ _ ih => exact ih
  | save _ _ _ ih => exact Nat.le_of_succ_le ih

theorem Ordered.temporaries {n o : Nat} {pending : List Move} {steps : List Step}
    (h : Ordered n pending steps o) :
    (temporaries steps).Nodup ∧ ∀ s ∈ temporaries steps, n ≤ s.serial ∧ s.serial < o := by
  induction h with
  | done n => exact ⟨List.nodup_nil, fun s hs => absurd hs List.not_mem_nil⟩
  | transfer _ _ ih => exact ih
  | @save n o pending first steps mem read rest ih =>
    refine ⟨List.nodup_cons.2 ⟨fun hm => ?_, ih.1⟩, fun s hs => ?_⟩
    · exact absurd (ih.2 _ hm).1 (Nat.not_succ_le_self n)
    · rcases List.mem_cons.1 hs with rfl | hs
      · exact ⟨Nat.le_refl n, rest.le⟩
      · exact ⟨Nat.le_of_succ_le (ih.2 s hs).1, (ih.2 s hs).2⟩

theorem mem_reads_instruction {m : Move} {s : Slot} : s ∈ m.instruction.reads ↔
    m.source = .slot s := by
  cases h : m.source <;> simp [instruction, Instruction.reads, Instruction.inputs,
    Operand.slot?, h, eq_comm]

/-- What a schedule writes: the destinations of the moves, and its temporaries. -/
theorem Ordered.writes {n o : Nat} {pending : List Move} {steps : List Step}
    (h : Ordered n pending steps o) {s : Slot} (hs : ∃ i ∈ stepCode steps, i.writes = some s) :
    (∃ m ∈ pending, m.destination = s) ∨ s ∈ Move.temporaries steps := by
  induction h with
  | done n => obtain ⟨i, hi, -⟩ := hs; exact absurd hi List.not_mem_nil
  | @transfer n o a b ready steps unread rest ih =>
    obtain ⟨i, hi, hw⟩ := hs
    rcases List.mem_cons.1 hi with rfl | hi
    · exact Or.inl ⟨ready, by simp, Option.some.inj hw⟩
    · exact (ih ⟨i, hi, hw⟩).imp_left fun ⟨m, hm, hd⟩ =>
        ⟨m, (sublist_middle a b ready).subset hm, hd⟩
  | @save n o pending first steps mem read rest ih =>
    obtain ⟨i, hi, hw⟩ := hs
    rcases List.mem_cons.1 hi with rfl | hi
    · exact Or.inr (List.mem_cons.2 (Or.inl (Option.some.inj hw).symm))
    · refine (ih ⟨i, hi, hw⟩).imp (fun ⟨m', hm', hd'⟩ => ?_) fun ht => List.mem_cons_of_mem _ ht
      obtain ⟨m, hm, hd, -⟩ := mem_redirect.1 hm'
      exact ⟨m, hm, hd ▸ hd'⟩

/-- What a schedule reads from before it, some of the moves read. -/
theorem Ordered.mem_liveBefore {n o : Nat} {pending : List Move} {steps : List Step}
    (h : Ordered n pending steps o) {s : Slot} (hs : s ∈ Block.liveBefore (stepCode steps) []) :
    ∃ m ∈ pending, m.source = .slot s := by
  induction h with
  | done n => exact absurd hs List.not_mem_nil
  | @transfer n o a b ready steps unread rest ih =>
    rcases Block.mem_liveBefore_cons.1 hs with hr | ⟨hl, -⟩
    · exact ⟨ready, by simp, mem_reads_instruction.1 hr⟩
    · obtain ⟨m, hm, he⟩ := ih hl
      exact ⟨m, (sublist_middle a b ready).subset hm, he⟩
  | @save n o pending first steps mem read rest ih =>
    obtain ⟨m, hm, he⟩ := isRead_iff.1 read
    rcases Block.mem_liveBefore_cons.1 hs with hr | ⟨hl, hw⟩
    · obtain rfl : first.destination = s := Operand.slot.inj (mem_reads_instruction.1 hr)
      exact ⟨m, hm, he⟩
    · obtain ⟨m', hm', he'⟩ := ih hl
      obtain ⟨m, hm, -, hsrc⟩ := mem_redirect.1 hm'
      rw [hsrc] at he'
      split at he'
      · exact absurd (congrArg some (Operand.slot.inj he')) hw
      · exact ⟨m, hm, he'⟩

/-- A slot that a move reads and none writes is read by the schedule before the schedule writes
it. -/
theorem Ordered.source_mem_liveBefore {n o : Nat} {pending : List Move} {steps : List Step}
    (h : Ordered n pending steps o) (hbelow : Below n pending) {m : Move}
    (hm : m ∈ pending) {s : Slot} (hs : m.source = .slot s)
    (hd : ∀ m' ∈ pending, m'.destination ≠ s) : s ∈ Block.liveBefore (stepCode steps) [] := by
  induction h generalizing m with
  | done n => exact absurd hm List.not_mem_nil
  | @transfer n o a b ready steps unread rest ih =>
    by_cases he : m = ready
    · exact Block.mem_liveBefore_cons.2 (Or.inl (mem_reads_instruction.2 (he ▸ hs)))
    · have hm' : m ∈ a ++ b := by simpa [he] using hm
      have hd' : ∀ m' ∈ a ++ b, m'.destination ≠ s :=
        fun m' hm' => hd m' ((sublist_middle a b ready).subset hm')
      refine Block.mem_liveBefore_cons.2 (Or.inr ⟨ih hbelow.transfer hm' hs hd', fun hw => ?_⟩)
      exact hd ready (by simp) (Option.some.inj hw)
  | @save n o pending first steps mem read rest ih =>
    have hne : m.source ≠ .slot first.destination :=
      fun he => hd first mem (Operand.slot.inj (he.symm.trans hs))
    have hm' : m ∈ redirect first.destination ⟨first.destination.kind, n⟩ pending :=
      mem_redirect.2 ⟨m, hm, rfl, by rw [if_neg hne]⟩
    refine Block.mem_liveBefore_cons.2
      (Or.inr ⟨ih (hbelow.redirect _ _) hm' hs fun m'' hm'' => ?_, fun hw => ?_⟩)
    · obtain ⟨m₀, hm₀, hd₀, -⟩ := mem_redirect.1 hm''
      exact hd₀ ▸ hd m₀ hm₀
    · obtain rfl := Option.some.inj hw
      exact absurd ((hbelow m hm).2 _ hs) (Nat.lt_irrefl n)

/-! ### Making a schedule -/

/-- With temporaries that are new, ordering comes to an end within its limit. -/
theorem order_gives {limit : Nat} {pending : List Move} {f : Front} (hfree : f.pool.free = [])
    (hbelow : Below f.pool.next pending) (hlimit : weight pending ≤ limit) :
    ∃ steps o,
      (order (fun kind => Walk.allocate kind .shared) (fun step => Walk.note (.moved step)) limit
        pending).Gives f
        steps (f.withPool { f.pool with next := o }) ∧ Ordered f.pool.next pending steps o := by
  induction limit generalizing pending f with
  | zero =>
    have hnil : pending = [] := List.length_eq_zero_iff.1 (by rw [weight] at hlimit; omega)
    subst hnil
    exact ⟨[], f.pool.next, .pure f [], .done _⟩
  | succ limit ih =>
    cases pending with
    | nil => exact ⟨[], f.pool.next, .pure f [], .done _⟩
    | cons first rest =>
      rw [order]
      cases ht : takeReady (first :: rest) (first :: rest) with
      | some p =>
        obtain ⟨ready, others⟩ := p
        obtain ⟨hunread, a, b, he, rfl⟩ := takeReady_eq_some ht
        rw [he] at hbelow hlimit hunread ⊢
        have hw : weight (a ++ b) < weight (a ++ ready :: b) := weight_transfer
        obtain ⟨steps, o, hg, ho⟩ := ih hfree hbelow.transfer (by omega)
        refine ⟨.transfer ready :: steps, o, ?_, .transfer hunread ho⟩
        exact (Walk.Step.note_gives _ f).bind (hg.bind (.pure _ _))
      | none =>
        have hall := takeReady_eq_none ht
        have hne : (⟨first.destination.kind, f.pool.next⟩ : Slot) ≠ first.destination := fun he =>
          absurd (hbelow first List.mem_cons_self).1 (by rw [← he]; exact Nat.lt_irrefl _)
        have hw := weight_save hne hall
        obtain ⟨steps, o, hg, ho⟩ := ih
          (f := f.withPool { f.pool with next := f.pool.next + 1 }) hfree
          (hbelow.redirect first.destination first.destination.kind) (by omega)
        refine ⟨.save first.destination ⟨first.destination.kind, f.pool.next⟩ :: steps, o, ?_,
          .save List.mem_cons_self (hall first List.mem_cons_self) ho⟩
        have ha := Pool.allocate_of_free_nil hfree first.destination.kind .shared
        refine (Walk.Step.allocate_gives _ _ ha).bind ((Walk.Step.note_gives _ _).bind ?_)
        exact hg.bind (.pure _ _)

theorem schedule_gives {moves : List Move} {f : Front} (hfree : f.pool.free = [])
    (hbelow : Below f.pool.next moves) :
    ∃ steps o,
      (schedule (fun kind => Walk.allocate kind .shared) (fun step => Walk.note (.moved step))
        moves).Gives f steps (f.withPool { f.pool with next := o }) ∧
      Ordered f.pool.next (moves.filter fun m => ¬ m.IsRedundant) steps o := by
  refine order_gives hfree (fun m hm => hbelow m (List.mem_of_mem_filter hm)) ?_
  have := weight_le (moves.filter fun m => ¬ m.IsRedundant)
  omega

end Move

end LoopTrace
