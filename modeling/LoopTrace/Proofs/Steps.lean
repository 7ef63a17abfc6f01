import LoopTrace.Lowering.Walk

/-!
# Runs of the walk's steps

What a step of the walk does, the journal left aside. The front of a walk is its pool and the code
that stands so far. `Gives` says of a step that from a given front it succeeds with a result and
leaves another front, `Fails` that it ends in a fault of some sort. Both go along a chain of steps,
so that a part of the walk is known from its steps.
-/

namespace LoopTrace

/-- What the walk works on: the pool, the code of the block that is being filled, and that of the
blocks after it. -/
structure Front where
  pool : Pool
  code : List Instruction
  later : List (List Instruction)

namespace Front

/-- The front with another pool. -/
def withPool (f : Front) (p : Pool) : Front := { f with pool := p }

@[simp] theorem pool_withPool (f : Front) (p : Pool) : (f.withPool p).pool = p := rfl

/-- All code that stands, in execution order. -/
def straight (f : Front) : List Instruction := f.code ++ f.later.flatten

end Front

namespace Walk

/-- The front of a walk. -/
def front (w : Walk) : Front := ⟨w.pool, w.code, w.later⟩

/-- The walk once events have been entered and the pool has become another. -/
def after (w : Walk) (es : List Event) (pool : Pool) : Walk :=
  { w with journal := w.journal ++ es.toArray, pool }

namespace Step

variable {α β : Type}

/-- From the front `f` the step succeeds with `a` and leaves the front `g`. -/
def Gives (x : Step α) (f : Front) (a : α) (g : Front) : Prop :=
  ∀ w : Walk, w.front = f → ∃ w' : Walk, x.run.run w = (.ok a, w') ∧ w'.front = g

/-- From the front `f` the step ends in one of the given faults. -/
def Fails (x : Step α) (f : Front) (E : Fault → Prop) : Prop :=
  ∀ w : Walk, w.front = f → ∃ e, ∃ w' : Walk, x.run.run w = (.error e, w') ∧ E e

theorem run_bind (x : Step α) (k : α → Step β) (w : Walk) :
    (x >>= k).run.run w =
      match x.run.run w with
      | (.ok a, w') => (k a).run.run w'
      | (.error e, w') => (.error e, w') := by
  rw [ExceptT.run_bind, StateT.run_bind]
  rcases x.run.run w with ⟨a | e, w'⟩ <;> rfl

theorem run_bind_of_ok {x : Step α} {k : α → Step β} {w w₁ w' : Walk} {a : α} {b : β}
    (hx : x.run.run w = (.ok a, w₁)) (hk : (k a).run.run w₁ = (.ok b, w')) :
    (x >>= k).run.run w = (.ok b, w') := by
  rw [run_bind, hx]
  exact hk

theorem exists_of_run_bind {x : Step α} {k : α → Step β} {w w' : Walk} {b : β}
    (h : (x >>= k).run.run w = (.ok b, w')) :
    ∃ a w₁, x.run.run w = (.ok a, w₁) ∧ (k a).run.run w₁ = (.ok b, w') := by
  rw [run_bind] at h
  rcases hx : x.run.run w with ⟨e | a, w₁⟩
  · rw [hx] at h
    cases h
  · rw [hx] at h
    exact ⟨a, w₁, rfl, h⟩

/-- Entering events into the journal does nothing else. -/
theorem run_noteAll (es : List Event) (w : Walk) : (noteAll es).run.run w =
    (.ok (), { w with journal := w.journal ++ es.toArray }) := by
  induction es generalizing w with
  | nil =>
    rw [Array.append_empty]
    rfl
  | cons e es ih =>
    have hcons : noteAll (e :: es) = note e >>= fun _ => noteAll es := rfl
    have hnote : (note e).run.run w = (.ok (), { w with journal := w.journal.push e }) := rfl
    rw [hcons, run_bind, hnote]
    simp [ih]

/-- A step that looks at the walk and enters events before it goes on. -/
theorem run_noting (es : Walk → List Event) (k : Walk → Step α) (w : Walk) :
    (MonadState.get >>= fun w => noteAll (es w) >>= fun _ => k w : Step α).run.run w =
      (k w).run.run { w with journal := w.journal ++ (es w).toArray } := by
  have h : (MonadState.get >>= fun w => noteAll (es w) >>= fun _ => k w : Step α).run.run w =
      (noteAll (es w) >>= fun _ => k w).run.run w := rfl
  rw [h, run_bind, run_noteAll]

/-- How handing out a slot runs. -/
theorem run_allocate (kind : Kind) (mode : Pool.Mode) (w : Walk) :
    (allocate kind mode).run.run w = (.ok (w.pool.allocate kind mode).1,
      w.after (w.pool.events (.allocate kind mode)) (w.pool.allocate kind mode).2) :=
  run_noting _ _ w

/-- How finding the slot of a value runs: a refusal leaves its events as well. -/
theorem run_allocateFor (v : ValueId) (kind : Kind) (mode : Pool.Mode) (w : Walk) :
    (allocateFor v kind mode).run.run w =
      ((w.pool.allocateFor v kind mode).1.mapError fun e => .breach (.pool e),
        w.after (w.pool.events (.allocateFor v kind mode)) (w.pool.allocateFor v kind mode).2) := by
  refine (run_noting _ _ w).trans ?_
  rcases w.pool.allocateFor v kind mode with ⟨e | slot, q⟩ <;> rfl

theorem run_release {v : ValueId} {w : Walk} {slot : Slot} {q : Pool}
    (h : w.pool.release v = .ok (slot, q)) :
    (release v).run.run w = (.ok (), w.after (w.pool.events (.release v)) q) := by
  refine (run_noting _ _ w).trans ?_
  rw [h]
  rfl

theorem run_release_error {v : ValueId} {w : Walk} {e : Pool.Misuse}
    (h : w.pool.release v = .error e) : (release v).run.run w =
      (.error (.breach (.pool e)), w.after (w.pool.events (.release v)) w.pool) := by
  refine (run_noting _ _ w).trans ?_
  rw [h]
  rfl

theorem run_recycle {slot : Slot} {w : Walk} {q : Pool} (h : w.pool.recycle slot = .ok q) :
    (recycle slot).run.run w = (.ok (), { w with pool := q }) := by
  have hget : (MonadState.get : Step Walk).run.run w = (.ok w, w) := rfl
  rw [recycle, run_bind, hget]
  dsimp only
  rw [h]
  rfl

theorem run_recycle_error {slot : Slot} {w : Walk} {e : Pool.Misuse}
    (h : w.pool.recycle slot = .error e) :
    (recycle slot).run.run w = (.error (.breach (.pool e)), w) := by
  have hget : (MonadState.get : Step Walk).run.run w = (.ok w, w) := rfl
  rw [recycle, run_bind, hget]
  dsimp only
  rw [h]
  rfl

theorem Gives.pure (f : Front) (a : α) : (Pure.pure a : Step α).Gives f a f :=
  fun w hw => ⟨w, rfl, hw⟩

theorem Gives.bind {x : Step α} {k : α → Step β} {f g h : Front} {a : α} {b : β}
    (hx : x.Gives f a g) (hk : (k a).Gives g b h) : (x >>= k).Gives f b h := by
  intro w hw
  obtain ⟨w₁, h₁, hw₁⟩ := hx w hw
  obtain ⟨w₂, h₂, hw₂⟩ := hk w₁ hw₁
  exact ⟨w₂, run_bind_of_ok h₁ h₂, hw₂⟩

theorem Fails.bind {x : Step α} {k : α → Step β} {f : Front} {E : Fault → Prop} (hx : x.Fails f E) :
    (x >>= k).Fails f E := by
  intro w hw
  obtain ⟨e, w', h, he⟩ := hx w hw
  exact ⟨e, w', by rw [run_bind, h], he⟩

theorem Gives.fails {x : Step α} {k : α → Step β} {f g : Front} {a : α} {E : Fault → Prop}
    (hx : x.Gives f a g) (hk : (k a).Fails g E) : (x >>= k).Fails f E := by
  intro w hw
  obtain ⟨w₁, h₁, hw₁⟩ := hx w hw
  obtain ⟨e, w₂, h₂, he⟩ := hk w₁ hw₁
  exact ⟨e, w₂, by rw [run_bind, h₁]; exact h₂, he⟩

/-- A step that looks at the walk may use its front. -/
theorem Gives.get {k : Walk → Step β} {f g : Front} {b : β}
    (h : ∀ w : Walk, w.front = f → (k w).Gives f b g) :
    (MonadState.get >>= k : Step β).Gives f b g := by
  intro w hw
  obtain ⟨w', h', hw'⟩ := h w hw w hw
  exact ⟨w', h', hw'⟩

theorem Fails.get {k : Walk → Step β} {f : Front} {E : Fault → Prop}
    (h : ∀ w : Walk, w.front = f → (k w).Fails f E) :
    (MonadState.get >>= k : Step β).Fails f E := by
  intro w hw
  obtain ⟨e, w', h', he⟩ := h w hw w hw
  exact ⟨e, w', h', he⟩

theorem modify_gives {u : Walk → Walk} {f g : Front}
    (h : ∀ w : Walk, w.front = f → (u w).front = g) : (modify u : Step Unit).Gives f () g :=
  fun w hw => ⟨u w, rfl, h w hw⟩

theorem Fails.throw {f : Front} {E : Fault → Prop} {e : Fault} (he : E e) :
    (MonadExcept.throw e : Step α).Fails f E :=
  fun w _ => ⟨e, w, rfl, he⟩

theorem Fails.mono {x : Step α} {f : Front} {E E' : Fault → Prop} (h : x.Fails f E)
    (hE : ∀ e, E e → E' e) : x.Fails f E' := by
  intro w hw
  obtain ⟨e, w', h', he⟩ := h w hw
  exact ⟨e, w', h', hE e he⟩

/-- A choice between two steps may be made before what follows either of them. -/
theorem Gives.ite {c : Prop} [Decidable c] {x y : Step α} {k : α → Step β} {f g : Front} {b : β}
    (h : ((if c then x else y) >>= k).Gives f b g) :
    (if c then x >>= k else y >>= k).Gives f b g := by
  split at h <;> next hc => simpa [hc] using h

theorem Fails.ite {c : Prop} [Decidable c] {x y : Step α} {k : α → Step β} {f : Front}
    {E : Fault → Prop} (h : ((if c then x else y) >>= k).Fails f E) :
    (if c then x >>= k else y >>= k).Fails f E := by
  split at h <;> next hc => simpa [hc] using h

/-! ### Steps that work on the front alone -/

theorem note_gives (e : Event) (f : Front) : (note e).Gives f () f := modify_gives fun _ hw => hw

theorem noteAll_gives (es : List Event) (f : Front) : (noteAll es).Gives f () f := by
  induction es with
  | nil => exact .pure f ()
  | cons e es ih => exact (note_gives e f).bind ih

theorem prepend_gives (code : List Instruction) (f : Front) :
    (prepend code).Gives f () { f with code := code ++ f.code } :=
  modify_gives fun _ hw => by rw [← hw]; rfl

theorem enter_gives (phase : Phase) (f : Front) : (enter phase).Gives f () f :=
  modify_gives fun _ hw => hw

theorem openBlock_gives (f : Front) : openBlock.Gives f () ⟨f.pool, [], f.code :: f.later⟩ :=
  modify_gives fun _ hw => by rw [← hw]; rfl

theorem allocate_gives (kind : Kind) (mode : Pool.Mode) {f : Front} {s : Slot} {q : Pool}
    (h : f.pool.allocate kind mode = (s, q)) : (allocate kind mode).Gives f s (f.withPool q) := by
  refine .get fun w hw => ?_
  have hp : w.pool = f.pool := congrArg Front.pool hw
  refine (noteAll_gives _ f).bind ?_
  rw [hp, h]
  exact (modify_gives (g := f.withPool q) fun w' hw' => by rw [← hw']; rfl).bind (.pure _ s)

theorem allocateFor_gives (v : ValueId) (kind : Kind) (mode : Pool.Mode) {f : Front}
    {s : Slot} {q : Pool} (h : f.pool.allocateFor v kind mode = (.ok s, q)) :
    (allocateFor v kind mode).Gives f s (f.withPool q) := by
  refine .get fun w hw => ?_
  have hp : w.pool = f.pool := congrArg Front.pool hw
  refine (noteAll_gives _ f).bind ?_
  rw [hp, h]
  exact (modify_gives (g := f.withPool q) fun w' hw' => by rw [← hw']; rfl).bind (.pure _ s)

theorem release_gives (v : ValueId) {f : Front} {s : Slot} {q : Pool}
    (h : f.pool.release v = .ok (s, q)) : (release v).Gives f () (f.withPool q) := by
  refine .get fun w hw => ?_
  have hp : w.pool = f.pool := congrArg Front.pool hw
  refine (noteAll_gives _ f).bind ?_
  rw [hp, h]
  exact modify_gives fun w' hw' => by rw [← hw']; rfl

theorem recycle_gives (s : Slot) {f : Front} {q : Pool} (h : f.pool.recycle s = .ok q) :
    (recycle s).Gives f () (f.withPool q) := by
  refine .get fun w hw => ?_
  have hp : w.pool = f.pool := congrArg Front.pool hw
  rw [hp, h]
  exact modify_gives fun w' hw' => by rw [← hw']; rfl

end Step

end Walk

end LoopTrace
