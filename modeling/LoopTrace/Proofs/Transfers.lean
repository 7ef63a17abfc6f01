import LoopTrace.Proofs.Moves
import LoopTrace.Proofs.Runs

/-!
# All moves at once

The steps of a schedule, performed one after another, do what the moves do all at once: every
destination ends up with what its source held before, whatever the cycles among the moves. That does not
depend on where temporaries come from, nor on which destination is saved when (`Sequence`). It takes no
more than that the moves have destinations of their own and that the temporaries are new to them
(`Fresh`).
-/

namespace LoopTrace

namespace Move

/-- The steps carry out the pending moves one after another: a move goes when no pending one reads what
it writes, and at any time a destination may be saved into a temporary. -/
inductive Sequence : List Move → List Step → Prop where
  | done : Sequence [] []
  | transfer {a b : List Move} {ready : Move} {steps : List Step}
      (unread : isRead (a ++ ready :: b) ready.destination = false) (rest : Sequence (a ++ b) steps) :
      Sequence (a ++ ready :: b) (.transfer ready :: steps)
  | save {pending : List Move} {first : Move} {steps : List Step} (temporary : Slot)
      (mem : first ∈ pending)
      (rest : Sequence (redirect first.destination temporary pending) steps) :
      Sequence pending (.save first.destination temporary :: steps)

/-- Slots that differ from one another and that no move mentions. -/
structure Fresh (moves : List Move) (slots : List Slot) : Prop where
  nodup : slots.Nodup
  destination : ∀ m ∈ moves, m.destination ∉ slots
  source : ∀ m ∈ moves, ∀ s ∈ slots, m.source ≠ .slot s

instance (moves : List Move) (slots : List Slot) : Decidable (Fresh moves slots) :=
  decidable_of_iff (slots.Nodup ∧ (∀ m ∈ moves, m.destination ∉ slots) ∧
      ∀ m ∈ moves, ∀ s ∈ slots, m.source ≠ .slot s)
    ⟨fun h => ⟨h.1, h.2.1, h.2.2⟩, fun h => ⟨h.nodup, h.destination, h.source⟩⟩

theorem Fresh.subset {moves moves' : List Move} {slots : List Slot} (h : Fresh moves slots)
    (hsub : moves' ⊆ moves) : Fresh moves' slots :=
  ⟨h.nodup, fun m hm => h.destination m (hsub hm), fun m hm => h.source m (hsub hm)⟩

/-- Temporaries stay new when one of them has been put to use. -/
theorem Fresh.redirect {pending : List Move} {temporary : Slot} {slots : List Slot}
    (h : Fresh pending (temporary :: slots)) (saved : Slot) :
    Fresh (redirect saved temporary pending) slots := by
  obtain ⟨hnew, hnd⟩ := List.nodup_cons.1 h.nodup
  refine ⟨hnd, fun m' hm' hs => ?_, fun m' hm' s hs he => ?_⟩
  · obtain ⟨m, hm, hd, -⟩ := mem_redirect.1 hm'
    exact h.destination m hm (List.mem_cons_of_mem _ (hd ▸ hs))
  · obtain ⟨m, hm, -, hsource⟩ := mem_redirect.1 hm'
    rw [hsource] at he
    split at he
    · exact hnew (Operand.slot.inj he ▸ hs)
    · exact h.source m hm s (List.mem_cons_of_mem _ hs) he

namespace Sequence

variable {pending : List Move} {steps : List Step}

/-- The steps write each destination and each temporary once, and nothing else. -/
theorem perm_destination (h : Sequence pending steps) :
    (steps.map fun step => step.move.destination).Perm
      (pending.map Move.destination ++ temporaries steps) := by
  induction h with
  | done => exact .nil
  | @transfer a b ready steps unread rest ih =>
    have hmiddle : (ready.destination :: ((a ++ b).map Move.destination ++ temporaries steps)).Perm
        ((a ++ ready :: b).map Move.destination ++ temporaries steps) := by
      have hmap : ((a ++ ready :: b).map Move.destination).Perm
          (ready.destination :: (a ++ b).map Move.destination) := List.perm_middle.map Move.destination
      exact (hmap.append_right _).symm
    exact (ih.cons ready.destination).trans hmiddle
  | @save pending first steps temporary mem rest ih =>
    rw [map_destination_redirect] at ih
    exact (ih.cons temporary).trans List.perm_middle.symm

theorem length_eq (h : Sequence pending steps) :
    steps.length = pending.length + (temporaries steps).length := by
  simpa using h.perm_destination.length_eq

/-- What a step reads, a pending move reads or writes, or an earlier step has written it. -/
theorem read (h : Sequence pending steps) {before after : List Step} {step : Step} {s : Slot}
    (he : steps = before ++ step :: after) (hs : step.move.source = .slot s) :
    (∃ m ∈ pending, m.source = .slot s) ∨ (∃ m ∈ pending, m.destination = s) ∨
      ∃ earlier ∈ before, earlier.move.destination = s := by
  induction h generalizing before with
  | done => simp at he
  | @transfer a b ready steps unread rest ih =>
    cases before with
    | nil =>
      obtain ⟨rfl, -⟩ := List.cons.inj he
      exact Or.inl ⟨ready, by simp, hs⟩
    | cons first before =>
      obtain ⟨rfl, hrest⟩ := List.cons.inj he
      rcases ih hrest with ⟨m, hm, h⟩ | ⟨m, hm, h⟩ | ⟨earlier, hm, h⟩
      · exact Or.inl ⟨m, (sublist_middle a b ready).subset hm, h⟩
      · exact Or.inr (Or.inl ⟨m, (sublist_middle a b ready).subset hm, h⟩)
      · exact Or.inr (Or.inr ⟨earlier, List.mem_cons_of_mem _ hm, h⟩)
  | @save pending first steps temporary mem rest ih =>
    cases before with
    | nil =>
      obtain ⟨rfl, -⟩ := List.cons.inj he
      exact Or.inr (Or.inl ⟨first, mem, Operand.slot.inj hs⟩)
    | cons step' before =>
      obtain ⟨rfl, hrest⟩ := List.cons.inj he
      rcases ih hrest with ⟨m', hm', h⟩ | ⟨m', hm', h⟩ | ⟨earlier, hm, h⟩
      · obtain ⟨m, hm, -, hsource⟩ := mem_redirect.1 hm'
        rw [h] at hsource
        split at hsource
        · exact Or.inr (Or.inr ⟨_, List.mem_cons_self, (Operand.slot.inj hsource).symm⟩)
        · exact Or.inl ⟨m, hm, hsource.symm⟩
      · obtain ⟨m, hm, hd, -⟩ := mem_redirect.1 hm'
        exact Or.inr (Or.inl ⟨m, hm, hd ▸ h⟩)
      · exact Or.inr (Or.inr ⟨earlier, List.mem_cons_of_mem _ hm, h⟩)

/-- A temporary that is new to the moves is written before it is read. -/
theorem temporary_written (h : Sequence pending steps) (hfresh : Fresh pending (temporaries steps))
    {before after : List Step} {step : Step} {s : Slot} (he : steps = before ++ step :: after)
    (hs : step.move.source = .slot s) (ht : s ∈ temporaries steps) :
    ∃ earlier ∈ before, earlier.move.destination = s := by
  rcases h.read he hs with ⟨m, hm, h⟩ | ⟨m, hm, rfl⟩ | hearlier
  · exact absurd h (hfresh.source m hm s ht)
  · exact absurd ht (hfresh.destination m hm)
  · exact hearlier

end Sequence

theorem Ordered.sequence {n o : Nat} {pending : List Move} {steps : List Step}
    (h : Ordered n pending steps o) : Sequence pending steps := by
  induction h with
  | done n => exact .done
  | transfer unread _ ih => exact .transfer unread ih
  | save mem _ _ ih => exact .save _ mem ih

/-- Temporaries have numbers of their own, so they are new to all moves whose slots have lower ones. -/
theorem Ordered.fresh {n o : Nat} {pending moves : List Move} {steps : List Step}
    (h : Ordered n pending steps o) (hbelow : Below n moves) : Fresh moves (Move.temporaries steps) := by
  obtain ⟨hnd, hserial⟩ := h.temporaries
  refine ⟨hnd, fun m hm hs => ?_, fun m hm s hs he => ?_⟩
  · exact Nat.not_lt.2 (hserial _ hs).1 (hbelow m hm).1
  · exact Nat.not_lt.2 (hserial s hs).1 ((hbelow m hm).2 s he)

/-! ### Performing the steps -/

variable {W V : Type} {M : Meaning W V}

/-- The steps touch nothing but the store. -/
theorem performAll_stepCode (steps : List Step) (m : Memory W V) :
    (M.performAll (stepCode steps) m).world = m.world ∧
    (M.performAll (stepCode steps) m).frame = m.frame := by
  induction steps generalizing m with
  | nil => exact ⟨rfl, rfl⟩
  | cons step steps ih => exact ih (M.perform step.move.instruction m)

/-- An operand keeps its value if only another slot is written. -/
theorem operand_update {store : Slot → V} {d : Slot} {x : V} {o : Operand} (h : o ≠ .slot d) :
    M.operand (Function.update store d x) o = M.operand store o := by
  cases o with
  | slot s => exact Function.update_of_ne (fun he => h (congrArg Operand.slot he)) _ _
  | _ => rfl

/-- A slot that is neither a destination nor a temporary keeps its contents. -/
theorem Sequence.store_other {pending : List Move} {steps : List Step} (h : Sequence pending steps)
    (m : Memory W V) {s : Slot} (hd : ∀ mv ∈ pending, mv.destination ≠ s)
    (ht : s ∉ temporaries steps) : (M.performAll (stepCode steps) m).store s = m.store s := by
  refine M.store_performAll fun i hi hw => ?_
  obtain ⟨step, hstep, rfl⟩ := List.mem_map.1 hi
  have hmem := h.perm_destination.subset (List.mem_map_of_mem hstep)
  rw [show step.move.destination = s from Option.some.inj hw] at hmem
  rcases List.mem_append.1 hmem with hm | hm
  · obtain ⟨mv, hmv, he⟩ := List.mem_map.1 hm
    exact hd mv hmv he
  · exact ht hm

/-- **Moves that are carried out one after another** have the effect that they are to have all at
once. -/
theorem Sequence.store_destination {pending : List Move} {steps : List Step}
    (h : Sequence pending steps) (hfresh : Fresh pending (temporaries steps))
    (hnd : (pending.map Move.destination).Nodup) (m : Memory W V) :
    ∀ mv ∈ pending, (M.performAll (stepCode steps) m).store mv.destination =
      M.operand m.store mv.source := by
  induction h generalizing m with
  | done => exact fun mv hmv => absurd hmv List.not_mem_nil
  | @transfer a b ready steps unread rest ih =>
    have hnd' : ((a ++ b).map Move.destination).Nodup :=
      hnd.sublist ((sublist_middle a b ready).map _)
    have hfresh' : Fresh (a ++ b) (temporaries steps) := hfresh.subset (sublist_middle a b ready).subset
    have hother : ∀ mv ∈ a ++ b, mv.destination ≠ ready.destination := by
      intro mv hmv he
      rw [List.map_append, List.map_cons, List.nodup_middle, ← List.map_append] at hnd
      exact (List.nodup_cons.1 hnd).1 (List.mem_map.2 ⟨mv, hmv, he⟩)
    intro mv hmv
    by_cases hr : mv = ready
    · -- no later step writes the destination again
      subst hr
      have hkeep := rest.store_other (M := M) (M.perform mv.instruction m) hother
        (hfresh.destination mv hmv)
      exact hkeep.trans (Function.update_self _ _ _)
    · have hmv' : mv ∈ a ++ b := by simpa [hr] using hmv
      have hsource : mv.source ≠ .slot ready.destination := fun he => by
        have := isRead_iff.2 ⟨mv, hmv, he⟩
        rw [unread] at this
        cases this
      exact (ih hfresh' hnd' (M.perform ready.instruction m) mv hmv').trans (operand_update hsource)
  | @save pending first steps temporary mem rest ih =>
    have hnd' : ((redirect first.destination temporary pending).map Move.destination).Nodup := by
      rwa [map_destination_redirect]
    intro mv hmv
    obtain ⟨mv', hmv', hd, hs⟩ : ∃ mv' ∈ redirect first.destination temporary pending,
        mv'.destination = mv.destination ∧
          mv'.source = if mv.source = .slot first.destination then .slot temporary else mv.source := by
      refine ⟨⟨mv.destination, if mv.source = .slot first.destination then .slot temporary
        else mv.source⟩, ?_, rfl, rfl⟩
      exact mem_redirect.2 ⟨mv, hmv, rfl, rfl⟩
    rw [← hd]
    refine (ih (hfresh.redirect _) hnd'
      (M.perform (.assign temporary (.slot first.destination)) m) mv' hmv').trans ?_
    rw [hs]
    split
    · next he =>
      rw [he]
      exact Function.update_self _ _ _
    · exact operand_update (hfresh.source mv hmv temporary List.mem_cons_self)

theorem Ordered.store_destination {n o : Nat} {pending : List Move} {steps : List Step}
    (h : Ordered n pending steps o) (hbelow : Below n pending)
    (hnd : (pending.map Move.destination).Nodup) (m : Memory W V) :
    ∀ mv ∈ pending, (M.performAll (stepCode steps) m).store mv.destination =
      M.operand m.store mv.source :=
  h.sequence.store_destination (h.fresh hbelow) hnd m

end Move

end LoopTrace
