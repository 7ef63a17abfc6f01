import LoopTrace.Proofs.Custody
import LoopTrace.Proofs.Steps

/-!
# As a walk goes on

Whatever part of the walk has run, and whether or not it came to its end, four things at most have happened
to the walk: events were entered, code was put in front, requests were made of the pool, and phases were
entered. A relation that the first three of them keep (`Walk.Admits`) holds between the walk before and the
walk after, as long as no phase is entered (`Walk.Step.Along`), and if it lets phases be entered as well, it
holds of all of a walk (`Job.lower_along`).

That the phase stays is such a relation, and so is that the accounts of a pool follow from the requests
that were made of it.
-/

namespace LoopTrace

namespace Walk

/-- The relation holds between walks one of which has come from the other by what the steps do, the
entering of phases left aside. -/
structure Admits (R : Walk → Walk → Prop) : Prop where
  refl : ∀ w, R w w
  trans : ∀ {u v w}, R u v → R v w → R u w
  /-- Slots that are minted are entered into the journal when the pool is asked for them. -/
  note : ∀ (w : Walk) (e : Event), e.minted? = none → R w { w with journal := w.journal.push e }
  code : ∀ (w : Walk) (code : List Instruction) (later : List (List Instruction)),
    R w { w with code, later }
  request : ∀ (w : Walk) (request : Pool.Request),
    R w (w.after (w.pool.events request) (w.pool.answer request).2)

namespace Step

variable {α β : Type} {R : Walk → Walk → Prop}

/-- The walk before the step and the walk after it are so related, whether it succeeds or fails. -/
def Along (R : Walk → Walk → Prop) (x : Step α) : Prop := ∀ w : Walk, R w (x.run.run w).2

section Admits

variable (hR : Admits R)

include hR

theorem Along.pure (a : α) : (Pure.pure a : Step α).Along R := hR.refl

theorem Along.throw (e : Fault) : (MonadExcept.throw e : Step α).Along R := hR.refl

theorem Along.bind {x : Step α} {k : α → Step β} (hx : x.Along R) (hk : ∀ a, (k a).Along R) :
    (x >>= k).Along R := by
  intro w
  have h := hx w
  rw [run_bind]
  rcases hr : x.run.run w with ⟨e | a, w'⟩ <;> rw [hr] at h
  · exact h
  · exact hR.trans h (hk a w')

omit hR in
/-- A step that looks at the walk. -/
theorem Along.get {k : Walk → Step β} (h : ∀ w, (k w).Along R) :
    (MonadState.get >>= k : Step β).Along R := fun w => h w w

theorem Along.mapM {k : α → Step β} (hk : ∀ a, (k a).Along R) (as : List α) :
    (as.mapM k).Along R := by
  induction as with
  | nil =>
    rw [List.mapM_nil]
    exact .pure hR []
  | cons a as ih =>
    rw [List.mapM_cons]
    exact .bind hR (hk a) fun _ => .bind hR ih fun _ => .pure hR _

theorem Along.forM {k : α → Step Unit} (hk : ∀ a, (k a).Along R) (as : List α) :
    (as.forM k).Along R := by
  induction as with
  | nil => exact .pure hR ()
  | cons a as ih => exact .bind hR (hk a) fun _ => ih

/-! ### The steps that work on the front -/

theorem note_along {e : Event} (he : e.minted? = none) : (note e).Along R := fun w => hR.note w e he

theorem prepend_along (code : List Instruction) : (prepend code).Along R :=
  fun w => hR.code w (code ++ w.code) w.later

theorem openBlock_along : openBlock.Along R := fun w => hR.code w [] (w.code :: w.later)

theorem allocate_along (kind : Kind) (mode : Pool.Mode) : (allocate kind mode).Along R := by
  intro w
  rw [run_allocate]
  exact hR.request w (.allocate kind mode)

theorem allocateFor_along (v : ValueId) (kind : Kind) (mode : Pool.Mode) :
    (allocateFor v kind mode).Along R := by
  intro w
  have hpool : (w.pool.answer (.allocateFor v kind mode)).2 = (w.pool.allocateFor v kind mode).2 := by
    rw [Pool.answer]
    rcases w.pool.allocateFor v kind mode with ⟨e | s, q⟩ <;> rfl
  rw [run_allocateFor, ← hpool]
  exact hR.request w (.allocateFor v kind mode)

theorem release_along (v : ValueId) : (release v).Along R := by
  intro w
  have h := hR.request w (.release v)
  rw [Pool.answer] at h
  cases hr : w.pool.release v with
  | error e =>
    rw [run_release_error hr]
    simpa only [hr] using h
  | ok r =>
    rw [run_release hr]
    simpa only [hr] using h

theorem recycle_along (s : Slot) : (recycle s).Along R := by
  intro w
  have h := hR.request w (.recycle s)
  rw [Pool.answer] at h
  cases hr : w.pool.recycle s with
  | error e =>
    rw [run_recycle_error hr]
    exact hR.refl w
  | ok q =>
    have hafter : w.after (w.pool.events (.recycle s)) q = { w with pool := q } := by
      simp [Walk.after, Pool.events]
    rw [run_recycle hr]
    simpa only [hr, hafter] using h

theorem endDefinition_along (v : ValueId) (result : Option Slot) :
    (endDefinition v result).Along R := by
  rw [endDefinition]
  split
  · exact release_along hR v
  · exact .pure hR ()

end Admits

end Step

end Walk

open Walk Walk.Step

variable {R : Walk → Walk → Prop} (hR : Admits R)

include hR

theorem Move.order_along (limit : Nat) (pending : List Move) :
    (order (fun kind => Walk.allocate kind .shared) (fun step => Walk.note (.moved step)) limit
      pending).Along R := by
  induction limit generalizing pending with
  | zero => exact .pure hR []
  | succ limit ih =>
    cases pending with
    | nil => exact .pure hR []
    | cons first rest =>
      rw [order]
      split
      · exact .bind hR (note_along hR rfl) fun _ => .bind hR (ih _) fun _ => .pure hR _
      · exact .bind hR (allocate_along hR _ _) fun _ => .bind hR (note_along hR rfl) fun _ =>
          .bind hR (ih _) fun _ => .pure hR _

namespace Job

variable (j : Job)

/-! ### The parts of the walk -/

theorem fetch_along (id : ValueId) : (j.fetch id).Along R := by
  rw [fetch]
  cases j.trace.get? id with
  | some v => exact .pure hR v
  | none => exact .throw hR _

theorem slotOf_along (id : ValueId) (kind : Kind) : (j.slotOf id kind).Along R := by
  rw [slotOf]
  split
  · exact .throw hR _
  · exact allocateFor_along hR _ _ _

theorem use_along (id : ValueId) : (j.use id).Along R := by
  refine .bind hR (fetch_along hR j id) fun v => ?_
  cases v with
  | constant c => exact .pure hR _
  | untracked => exact .pure hR _
  | _ => exact .bind hR (slotOf_along hR j _ _) fun _ => .pure hR _

theorem useFrame?_along (frame : Option (Frame ValueId)) : (j.useFrame? frame).Along R := by
  cases frame with
  | none => exact .pure hR none
  | some frame =>
    have huses : ∀ ids : List ValueId, (ids.mapM j.use).Along R := .mapM hR (use_along hR j)
    have hframe : (j.useFrame frame).Along R :=
      .bind hR (huses _) fun _ => .bind hR (huses _) fun _ => .pure hR _
    exact .bind hR hframe fun _ => .pure hR _

theorem define_along (id : ValueId) (kind : Kind) : (j.define id kind).Along R := by
  rw [define]
  split
  · exact .pure hR none
  · exact .bind hR (allocateFor_along hR _ _ _) fun _ => .pure hR _

theorem parameter_along (id : ValueId) : (j.parameter id).Along R := by
  refine .bind hR (fetch_along hR j id) fun v => ?_
  cases v with
  | atEntry n kind flags =>
    have hrest : ∀ slot, (if kind.isWide then do
        return [slot, ← Walk.allocate .void .exclusive] else return [slot] :
          Step (List Slot)).Along R := by
      intro slot
      split
      · exact .bind hR (allocate_along hR _ _) fun _ => .pure hR _
      · exact .pure hR _
    dsimp only
    split
    · exact .bind hR (slotOf_along hR j _ _) hrest
    · exact .bind hR (allocate_along hR _ _) hrest
  | _ => exact .throw hR _

theorem writeMove_along (write : Trace.Write) : (j.writeMove write).Along R := by
  refine .bind hR (use_along hR j _) fun source => .bind hR (use_along hR j _) fun destination => ?_
  cases destination with
  | slot d =>
    dsimp only
    split
    · exact .bind hR (note_along hR rfl) fun _ => .pure hR _
    · exact .pure hR _
  | _ => exact .throw hR _

theorem writeBack_along : j.writeBack.Along R :=
  .bind hR (.mapM hR (writeMove_along hR j) _) fun _ => .bind hR (Move.order_along hR _ _) fun _ =>
    .bind hR (note_along hR rfl) fun _ => .bind hR (prepend_along hR _) fun _ =>
      .forM hR (recycle_along hR) _

theorem lowerGuard_along (site : ValueId) (kind : Kind) (comparator : Comparator)
    (left right : ValueId) (frame : Option (Frame ValueId)) :
    (j.lowerGuard site kind comparator left right frame).Along R :=
  .get fun _ => .bind hR (use_along hR j _) fun _ => .bind hR (use_along hR j _) fun _ =>
    .bind hR (useFrame?_along hR j _) fun _ => .bind hR (openBlock_along hR) fun _ => .get fun _ =>
      .bind hR (note_along hR rfl) fun _ => .bind hR (note_along hR rfl) fun _ => prepend_along hR _

theorem lowerPlain_along (id : ValueId) (v : Trace.Value) : (j.lowerPlain id v).Along R := by
  have huses : ∀ ids : List ValueId, (ids.mapM j.use).Along R := .mapM hR (use_along hR j)
  cases v with
  | operation op operands =>
    exact .bind hR (define_along hR j _ _) fun _ => .bind hR (huses _) fun _ =>
      .bind hR (prepend_along hR _) fun _ => endDefinition_along hR _ _
  | call method operands frame =>
    exact .bind hR (define_along hR j _ _) fun _ => .bind hR (huses _) fun _ =>
      .bind hR (useFrame?_along hR j _) fun _ => .bind hR (prepend_along hR _) fun _ =>
        endDefinition_along hR _ _
  | inlinedCall method operands => exact .throw hR _
  | _ => exact .pure hR ()

theorem lowerBody_along (id : ValueId) : (j.lowerBody id).Along R := by
  refine .bind hR (fetch_along hR j id) fun v => ?_
  cases v with
  | guard kind comparator left right frame => exact lowerGuard_along hR j _ _ _ _ _ _
  | _ => exact lowerPlain_along hR j _ _

theorem lowerPrologue_along (id : ValueId) : (j.lowerPrologue id).Along R := by
  refine .bind hR (fetch_along hR j id) fun v => ?_
  cases v with
  | guard kind comparator left right frame => exact .throw hR _
  | _ => exact lowerPlain_along hR j _ _

theorem lowerEntry_along : j.lowerEntry.Along R := by
  refine .bind hR (openBlock_along hR) fun _ => .bind hR (.forM hR (lowerPrologue_along hR j) _)
    fun _ => .get fun w => ?_
  split <;> exact note_along hR rfl

theorem verify_along (r : Routine) : (j.verify r).Along R := by
  rw [verify]
  split
  · cases r.verify with
    | ok u => exact .pure hR ()
    | error e => exact .throw hR _
  · exact .pure hR ()

/-! ### The whole walk -/

variable (henter : ∀ phase, (enter phase).Along R)

include henter

theorem lowerLoop_along : j.lowerLoop.Along R :=
  .bind hR (note_along hR rfl) fun _ => .bind hR (.mapM hR (parameter_along hR j) _) fun _ =>
    .bind hR (note_along hR rfl) fun _ => .bind hR (writeBack_along hR j) fun _ =>
      .bind hR (.forM hR (lowerBody_along hR j) _) fun _ => .bind hR (henter _) fun _ =>
        .get fun _ => .bind hR (note_along hR rfl) fun _ => .pure hR _

theorem lower_along : j.lower.Along R := by
  refine .bind hR (note_along hR rfl) fun _ => .bind hR (henter _) fun _ =>
    .bind hR (lowerLoop_along hR j henter) fun _ => .bind hR (henter _) fun _ =>
      .bind hR (lowerEntry_along hR j) fun _ => .get fun _ => .bind hR (verify_along hR j _) fun _ =>
        .bind hR (note_along hR rfl) fun _ => ?_
  split
  · exact .bind hR (note_along hR rfl) fun _ => .bind hR (henter _) fun _ => .pure hR _
  · exact .bind hR (henter _) fun _ => .pure hR _

end Job

end LoopTrace
