import LoopTrace.Proofs.Transfers

/-!
# Supplies of temporaries

Whoever has moves ordered supplies the temporaries, one for each call. A supply is anything that gives a
slot for a kind and may have a state of its own; what it gives may be seen from its loans (`lending`).
If the slots that it gives are new to the moves and differ from one another, the ordering comes to an
end by itself and not because it is cut off (`Exhausts`): a destination that has been saved may go next.
The steps then do what the moves do all at once (`schedule_parallel`).
-/

namespace LoopTrace

namespace Move

/-! ### Moves that are ordered -/

/-- The moves that are ordered: those of a slot to itself are left out. -/
def proper (moves : List Move) : List Move := moves.filter fun m => ¬ m.IsRedundant

theorem mem_proper {moves : List Move} {m : Move} :
    m ∈ proper moves ↔ m ∈ moves ∧ ¬ m.IsRedundant := by
  simp [proper]

theorem Fresh.proper {moves : List Move} {slots : List Slot} (h : Fresh moves slots) :
    Fresh (proper moves) slots :=
  h.subset fun _ hm => (mem_proper.1 hm).1

theorem nodup_destination_proper {moves : List Move} (h : (moves.map destination).Nodup) :
    ((proper moves).map destination).Nodup :=
  h.sublist (List.filter_sublist.map destination)

/-! ### What a supply hands out -/

/-- A temporary that a supply has handed out, and the kind that it was asked for. -/
structure Loan where
  kind : Kind
  slot : Slot
  deriving DecidableEq, Repr

/-- The loan that a step needs. -/
def Step.loan? : Step → Option Loan
  | .transfer _ => none
  | .save saved temporary => some ⟨saved.kind, temporary⟩

/-- The loans that steps need, in their order. -/
def loans (steps : List Step) : List Loan := steps.filterMap Step.loan?

@[simp] theorem loans_nil : loans [] = [] := rfl

@[simp] theorem loans_transfer (m : Move) (steps : List Step) :
    loans (.transfer m :: steps) = loans steps := rfl

@[simp] theorem loans_save (saved temporary : Slot) (steps : List Step) :
    loans (.save saved temporary :: steps) = ⟨saved.kind, temporary⟩ :: loans steps := rfl

theorem map_slot_loans (steps : List Step) : (loans steps).map Loan.slot = temporaries steps := by
  rw [loans, List.map_filterMap, temporaries]
  refine List.filterMap_congr fun step _ => ?_
  cases step <;> rfl

section Lending

variable {m : Type → Type} [Monad m]

/-- A supply that keeps a list of its loans. -/
def lending (fresh : Kind → m Slot) (kind : Kind) : StateT (List Loan) m Slot := do
  let slot ← fresh kind
  modify (· ++ [⟨kind, slot⟩])
  return slot

variable [LawfulMonad m] (fresh : Kind → m Slot) (note : Step → m Unit)

/-- Keeping the list changes nothing, and the list is what the steps tell: each save is a loan. -/
theorem order_lending (limit : Nat) (pending : List Move) (before : List Loan) :
    (order (lending fresh) (fun step => StateT.lift (note step)) limit pending).run before =
      (fun steps => (steps, before ++ loans steps)) <$> order fresh note limit pending := by
  induction limit generalizing pending before with
  | zero => simp [order]
  | succ limit ih =>
    cases pending with
    | nil => simp [order]
    | cons first rest =>
      rw [order, order]
      cases takeReady (first :: rest) (first :: rest) with
      | some next => simp [ih]
      | none => simp [ih, lending]

theorem schedule_lending (moves : List Move) :
    (schedule (lending fresh) (fun step => StateT.lift (note step)) moves).run [] =
      (fun steps => (steps, loans steps)) <$> schedule fresh note moves := by
  have h := order_lending fresh note (3 * (proper moves).length) (proper moves) []
  simp only [List.nil_append] at h
  exact h

end Lending

/-! ### The ordering comes to an end -/

/-- What a supply has handed out once moves have been ordered. -/
def lent {σ : Type} (supply : Kind → StateM σ Slot) (note : Step → StateM σ Unit) (s : σ)
    (moves : List Move) : List Loan :=
  (((schedule (lending supply) (fun step => StateT.lift (note step)) moves).run []).run s).1.2

/-- Taking the first move that is ready, and saving the first destination whenever none is, uses the
pending moves up, in these steps. -/
inductive Exhausts : List Move → List Step → Prop where
  | done : Exhausts [] []
  | transfer {pending others : List Move} {ready : Move} {steps : List Step}
      (next : takeReady pending pending = some (ready, others)) (rest : Exhausts others steps) :
      Exhausts pending (.transfer ready :: steps)
  | save {first : Move} {others : List Move} {steps : List Step} (temporary : Slot)
      (stuck : takeReady (first :: others) (first :: others) = none)
      (rest : Exhausts (redirect first.destination temporary (first :: others)) steps) :
      Exhausts (first :: others) (.save first.destination temporary :: steps)

theorem Exhausts.sequence {pending : List Move} {steps : List Step} (h : Exhausts pending steps) :
    Sequence pending steps := by
  induction h with
  | done => exact .done
  | transfer next _ ih =>
    obtain ⟨hunread, a, b, rfl, rfl⟩ := takeReady_eq_some next
    exact .transfer hunread ih
  | save temporary _ _ ih => exact .save temporary List.mem_cons_self ih

section Order

variable {σ : Type} {supply : Kind → StateM σ Slot} {note : Step → StateM σ Unit}

theorem loans_lent (s : σ) (moves : List Move) :
    lent supply note s moves = loans ((schedule supply note moves).run s).1 := by
  rw [lent, schedule_lending]
  rfl

/-- With temporaries that are new the limit is not reached. -/
theorem order_exhausts {limit : Nat} {pending : List Move} (hlimit : weight pending ≤ limit) {s : σ}
    (hfresh : Fresh pending (temporaries ((order supply note limit pending).run s).1)) :
    Exhausts pending ((order supply note limit pending).run s).1 := by
  induction limit generalizing pending s with
  | zero =>
    obtain rfl : pending = [] := List.length_eq_zero_iff.1 (by rw [weight] at hlimit; omega)
    exact .done
  | succ limit ih =>
    cases pending with
    | nil => exact .done
    | cons first rest =>
      rw [order] at hfresh ⊢
      cases ht : takeReady (first :: rest) (first :: rest) with
      | some next =>
        obtain ⟨ready, others⟩ := next
        obtain ⟨-, a, b, he, rfl⟩ := takeReady_eq_some ht
        have hw : weight (a ++ b) < weight (first :: rest) := he ▸ weight_transfer
        rw [ht] at hfresh
        refine .transfer ht (ih (by omega) ?_)
        exact hfresh.subset (he ▸ (sublist_middle a b ready).subset)
      | none =>
        rw [ht] at hfresh
        have hfresh' : Fresh (first :: rest) ((supply first.destination.kind s).1 :: _) := hfresh
        have hne : (supply first.destination.kind s).1 ≠ first.destination := fun he =>
          hfresh'.destination first List.mem_cons_self (List.mem_cons.2 (Or.inl he.symm))
        -- every destination was read, and the saved one is not any more: that is the progress
        have hw := weight_save hne (takeReady_eq_none ht)
        exact .save _ ht (ih (by omega) (hfresh'.redirect first.destination))

theorem schedule_exhausts {moves : List Move} {s : σ}
    (hfresh : Fresh moves (temporaries ((schedule supply note moves).run s).1)) :
    Exhausts (proper moves) ((schedule supply note moves).run s).1 := by
  have hlimit : weight (proper moves) ≤ 3 * (proper moves).length := by
    have := weight_le (proper moves)
    omega
  exact order_exhausts hlimit hfresh.proper

/-! ### The effect of a schedule -/

/-- The steps carry the moves out all at once and end by themselves; `temporaries` are the slots that
they may use besides. -/
structure Parallel (moves : List Move) (steps : List Step) (temporaries : List Slot) : Prop where
  exhausts : Exhausts (proper moves) steps
  /-- Every destination holds what its source held at first. -/
  destination : ∀ {W V : Type} (M : Meaning W V) (m : Memory W V), ∀ mv ∈ moves,
    (M.performAll (stepCode steps) m).store mv.destination = M.operand m.store mv.source
  /-- Every other slot holds what it held. -/
  other : ∀ {W V : Type} (M : Meaning W V) (m : Memory W V) (s : Slot),
    (∀ mv ∈ moves, mv.destination ≠ s) → s ∉ temporaries →
      (M.performAll (stepCode steps) m).store s = m.store s
  /-- What a step reads from a temporary, an earlier step has written there. -/
  written : ∀ {before after : List Step} {step : Step} {t : Slot}, steps = before ++ step :: after →
    t ∈ temporaries → step.move.source = .slot t → ∃ earlier ∈ before, earlier.move.destination = t

/-- **A schedule does what its moves do all at once**, if they have destinations of their own and the
supply hands out slots that are new to them. -/
theorem schedule_parallel (s : σ) (moves : List Move) (hdest : (moves.map destination).Nodup)
    (hfresh : Fresh moves ((lent supply note s moves).map Loan.slot)) :
    Parallel moves ((schedule supply note moves).run s).1
      ((lent supply note s moves).map Loan.slot) := by
  rw [loans_lent, map_slot_loans] at hfresh ⊢
  have hexhausts := schedule_exhausts hfresh
  have hseq := hexhausts.sequence
  refine ⟨hexhausts, fun M m mv hmv => ?_, fun M m s hd ht => ?_, fun he ht hs => ?_⟩
  · by_cases hr : mv.IsRedundant
    · -- nothing writes the destination of a move that is left out
      have hother : ∀ mv' ∈ proper moves, mv'.destination ≠ mv.destination := by
        intro mv' hmv' he
        obtain ⟨hmem, hr'⟩ := mem_proper.1 hmv'
        obtain rfl := List.inj_on_of_nodup_map hdest hmem hmv he
        exact hr' hr
      rw [hseq.store_other m hother (hfresh.destination mv hmv),
        show mv.source = .slot mv.destination from hr]
      rfl
    · exact hseq.store_destination hfresh.proper (nodup_destination_proper hdest) m mv
        (mem_proper.2 ⟨hmv, hr⟩)
  · exact hseq.store_other m (fun mv hmv => hd mv (mem_proper.1 hmv).1) ht
  · exact hseq.temporary_written hfresh.proper he hs ht

end Order

/-- Slots of the integer kind. -/
private def cell (n : Nat) : Slot := ⟨.int, n⟩

/-- A swap that a chain hangs off, a cycle of three with a fan-out, a move of a slot to itself, and
sources that are no slots. -/
def braid : List Move :=
  [⟨cell 1, .slot (cell 2)⟩, ⟨cell 2, .slot (cell 1)⟩, ⟨cell 3, .slot (cell 1)⟩,
    ⟨cell 4, .slot (cell 3)⟩, ⟨cell 5, .slot (cell 6)⟩, ⟨cell 6, .slot (cell 7)⟩,
    ⟨cell 7, .slot (cell 5)⟩, ⟨cell 8, .slot (cell 6)⟩, ⟨cell 9, .slot (cell 9)⟩,
    ⟨cell 10, .immediate (.int 7)⟩, ⟨cell 11, .undefined⟩]

/-- A supply that numbers its slots from its state on. -/
def numbering (kind : Kind) : StateM Nat Slot := fun n => (⟨kind, n⟩, n + 1)

theorem schedule_parallel_braid :
    (braid.map destination).Nodup ∧
    Fresh braid ((lent numbering (fun _ => pure ()) 20 braid).map Loan.slot) ∧
    Parallel braid ((schedule numbering (fun _ => pure ()) braid).run 20).1
      ((lent numbering (fun _ => pure ()) 20 braid).map Loan.slot) :=
  ⟨by decide, by decide, schedule_parallel 20 braid (by decide) (by decide)⟩

end Move

end LoopTrace
