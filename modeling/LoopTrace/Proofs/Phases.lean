import LoopTrace.Proofs.Advance

/-!
# The phases of a walk

The walk enters its phases itself, and no other step does. So the phase tells how far a walk has come, also
when it fails: a walk that succeeds is finished, and one that fails has been through its start and not to
its end (`lower_phased`). A session reads off the phase of a walk that has failed that it must not be used
again.
-/

namespace LoopTrace

namespace Walk

/-- The phase has stayed. -/
def SamePhase (w w' : Walk) : Prop := w'.phase = w.phase

theorem admits_samePhase : Admits SamePhase where
  refl _ := rfl
  trans h h' := h'.trans h
  note _ _ _ := rfl
  code _ _ _ := rfl
  request _ _ := rfl

namespace Step

variable {α β : Type}

/-- In phase `p` the step leads to phase `q` if it succeeds, and if it fails, the walk is underway. -/
def Phased (p : Phase) (x : Step α) (q : Phase) : Prop :=
  ∀ w : Walk, w.phase = p → match x.run.run w with
    | (.ok _, w') => w'.phase = q
    | (.error _, w') => w'.phase = .body ∨ w'.phase = .prologue

theorem Along.phased {x : Step α} (hx : x.Along SamePhase) {p : Phase}
    (hp : p = .body ∨ p = .prologue) : x.Phased p p := by
  rintro w rfl
  have h : (x.run.run w).2.phase = w.phase := hx w
  rcases hr : x.run.run w with ⟨e | a, w'⟩ <;> rw [hr] at h
  · exact hp.imp h.trans h.trans
  · exact h

theorem Phased.bind {x : Step α} {k : α → Step β} {p q r : Phase} (hx : x.Phased p q)
    (hk : ∀ a, (k a).Phased q r) : (x >>= k).Phased p r := by
  intro w hw
  have h := hx w hw
  rw [run_bind]
  rcases hr : x.run.run w with ⟨e | a, w'⟩ <;> rw [hr] at h
  · exact h
  · exact hk a w' h

theorem Phased.get {k : Walk → Step β} {p q : Phase} (h : ∀ w, (k w).Phased p q) :
    (MonadState.get >>= k : Step β).Phased p q := fun w hw => h w w hw

theorem Phased.pure (a : α) (p : Phase) : (Pure.pure a : Step α).Phased p p := fun _ hw => hw

theorem note_phased (e : Event) (p : Phase) : (note e).Phased p p := fun _ hw => hw

theorem enter_phased (p q : Phase) : (enter q).Phased p q := fun _ _ => rfl

end Step

end Walk

open Walk Walk.Step

namespace Job

variable (j : Job)

theorem lowerLoop_phased : j.lowerLoop.Phased .body .loopBack := by
  have hbody : ∀ {α : Type} {x : Step α}, x.Along SamePhase → x.Phased .body .body :=
    fun h => h.phased (.inl rfl)
  exact (note_phased _ _).bind fun _ =>
    (hbody (.mapM admits_samePhase (parameter_along admits_samePhase j) _)).bind fun _ =>
      (note_phased _ _).bind fun _ => (hbody (writeBack_along admits_samePhase j)).bind fun _ =>
        (hbody (.forM admits_samePhase (lowerBody_along admits_samePhase j) _)).bind fun _ =>
          (enter_phased _ _).bind fun _ => .get fun _ => (note_phased _ _).bind fun _ => .pure _ _

/-- A walk that succeeds is finished, and one that fails is underway. -/
theorem lower_phased : j.lower.Phased .start .finished := by
  refine (note_phased _ _).bind fun _ => (enter_phased _ .body).bind fun _ => ?_
  refine (lowerLoop_phased j).bind fun _ => (enter_phased _ .prologue).bind fun _ => ?_
  refine ((lowerEntry_along admits_samePhase j).phased (.inr rfl)).bind fun _ => .get fun _ => ?_
  refine ((verify_along admits_samePhase j _).phased (.inr rfl)).bind fun _ =>
    (note_phased _ _).bind fun _ => ?_
  split
  · exact (note_phased _ _).bind fun _ => (enter_phased _ _).bind fun _ => .pure _ _
  · exact (enter_phased _ _).bind fun _ => .pure _ _

end Job

end LoopTrace
