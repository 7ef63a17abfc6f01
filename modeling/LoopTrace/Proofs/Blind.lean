import LoopTrace.Proofs.Outcomes

/-!
# Before anything is handed out again

Whether slots are handed out again makes no difference as long as there are none to hand out again.
Nothing is released before the body, and the temporaries of the moves are given back only once the moves
stand. So what the walk does before the body is the same for both settings (`Course.twin`): the same
parameters and the same moves, with a pool that differs in the setting only.
-/

namespace LoopTrace

/-- The pool with slots to be handed out again, or not. -/
def Pool.withReuse (p : Pool) (b : Bool) : Pool := { p with reuse := b }

/-- The front with slots to be handed out again, or not. -/
def Front.withReuse (f : Front) (b : Bool) : Front := f.withPool (f.pool.withReuse b)

/-- There is nothing to hand out again. -/
def Front.Spent (f : Front) : Prop := f.pool.free = []

namespace Pool

variable {p : Pool}

theorem allocate_withReuse (h : p.free = []) (b : Bool) (kind : Kind) (mode : Mode) :
    (p.withReuse b).allocate kind mode =
      ((p.allocate kind mode).1, (p.allocate kind mode).2.withReuse b) := by
  have h' : (p.withReuse b).free = [] := h
  rw [allocate_of_free_nil h, allocate_of_free_nil h']
  rfl

theorem bind_withReuse (p : Pool) (b : Bool) (v : ValueId) (s : Slot) :
    (p.withReuse b).bind v s = (p.bind v s).map (·.withReuse b) := by
  rw [bind, bind, apply_ite (Except.map _), apply_ite (Except.map _), apply_ite (Except.map _)]
  rfl

theorem allocateFor_withReuse (h : p.free = []) (b : Bool) (v : ValueId) (kind : Kind)
    (mode : Mode) : (p.withReuse b).allocateFor v kind mode =
      ((p.allocateFor v kind mode).1, (p.allocateFor v kind mode).2.withReuse b) := by
  have hl : (p.withReuse b).lookup v = p.lookup v := rfl
  rw [allocateFor, allocateFor, hl, allocate_withReuse h]
  cases p.lookup v with
  | some s => rfl
  | none =>
    simp only [bind_withReuse]
    cases (p.allocate kind mode).2.bind v (p.allocate kind mode).1 <;> rfl

/-- Asking for the slot of a value gives back nothing. -/
theorem free_allocateFor (h : p.free = []) (v : ValueId) (kind : Kind) (mode : Mode) :
    (p.allocateFor v kind mode).2.free = [] := by
  rw [allocateFor, allocate_of_free_nil h]
  cases p.lookup v with
  | some s => exact h
  | none =>
    simp only [bind]
    split_ifs <;> exact h

theorem recycle_withReuse (p : Pool) (b : Bool) (s : Slot) :
    (p.withReuse b).recycle s = (p.recycle s).map (·.withReuse b) := by
  rw [recycle, recycle, apply_ite (Except.map _), apply_ite (Except.map _)]
  rfl

end Pool

namespace Walk.Step

variable {α β : Type}

/-- A step that succeeds from a front has one result there and leaves one front. -/
theorem Gives.unique {x : Step α} {f g g' : Front} {a a' : α} (h : x.Gives f a g)
    (h' : x.Gives f a' g') : a = a' ∧ g = g' := by
  let w : Walk := { pool := f.pool, code := f.code, later := f.later }
  obtain ⟨w₁, h₁, rfl⟩ := h w rfl
  obtain ⟨w₂, h₂, rfl⟩ := h' w rfl
  obtain ⟨ha, rfl⟩ := Prod.mk.inj (h₁.symm.trans h₂)
  exact ⟨Except.ok.inj ha, rfl⟩

theorem Gives.not_fails {x : Step α} {f g : Front} {a : α} {E : Fault → Prop}
    (h : x.Gives f a g) : ¬ x.Fails f E := by
  intro h'
  let w : Walk := { pool := f.pool, code := f.code, later := f.later }
  obtain ⟨w₁, h₁, -⟩ := h w rfl
  obtain ⟨e, w₂, h₂, -⟩ := h' w rfl
  cases (Prod.mk.inj (h₁.symm.trans h₂)).1

/-- From fronts with `P` the step fails, or it succeeds and leaves fronts with `Q`, and then it does the
same whether or not slots are handed out again. -/
def Blind (P Q : Front → Prop) (x : Step α) : Prop :=
  ∀ f, P f → (x.Fails f fun _ => True) ∨
    ∃ a g, Q g ∧ x.Gives f a g ∧ ∀ b, x.Gives (f.withReuse b) a (g.withReuse b)

variable {P Q R : Front → Prop}

theorem Blind.pure (a : α) : (Pure.pure a : Step α).Blind P P :=
  fun f hf => Or.inr ⟨a, f, hf, .pure f a, fun _ => .pure _ a⟩

theorem Blind.throw (e : Fault) : (MonadExcept.throw e : Step α).Blind P Q :=
  fun _ _ => Or.inl (.throw trivial)

theorem Blind.bind {x : Step α} {k : α → Step β} (hx : x.Blind P Q) (hk : ∀ a, (k a).Blind Q R) :
    (x >>= k).Blind P R := by
  intro f hf
  rcases hx f hf with hfail | ⟨a, g, hg, h₁, h₁'⟩
  · exact Or.inl hfail.bind
  rcases hk a g hg with hfail | ⟨b, g', hg', h₂, h₂'⟩
  · exact Or.inl (h₁.fails hfail)
  · exact Or.inr ⟨b, g', hg', h₁.bind h₂, fun r => (h₁' r).bind (h₂' r)⟩

theorem Blind.mapM {k : α → Step β} (hk : ∀ a, (k a).Blind P P) (as : List α) :
    (as.mapM k).Blind P P := by
  induction as with
  | nil =>
    rw [List.mapM_nil]
    exact .pure _
  | cons a as ih =>
    rw [List.mapM_cons]
    exact (hk a).bind fun b => ih.bind fun bs => .pure _

theorem Blind.forM {k : α → Step Unit} (hk : ∀ a, (k a).Blind P P) (as : List α) :
    (as.forM k).Blind P P := by
  induction as with
  | nil => exact .pure ()
  | cons a as ih => exact (hk a).bind fun _ => ih

/-- A step that is blind does from the other front what it does from one. -/
theorem Blind.gives {x : Step α} (h : x.Blind P Q) {f g : Front} {a : α} (hf : P f)
    (hx : x.Gives f a g) (b : Bool) : Q g ∧ x.Gives (f.withReuse b) a (g.withReuse b) := by
  rcases h f hf with hfail | ⟨a', g', hg, hx', hxb⟩
  · exact absurd hfail hx.not_fails
  · obtain ⟨rfl, rfl⟩ := hx.unique hx'
    exact ⟨hg, hxb b⟩

/-! ### The steps before the body -/

theorem note_blind (e : Event) : (note e).Blind P P :=
  fun f hf => Or.inr ⟨(), f, hf, note_gives e f, fun _ => note_gives e _⟩

theorem prepend_blind (code : List Instruction) : (prepend code).Blind Front.Spent Front.Spent :=
  fun f hf => Or.inr ⟨(), { f with code := code ++ f.code }, hf, prepend_gives code f,
    fun b => prepend_gives code (f.withReuse b)⟩

theorem allocate_blind (kind : Kind) (mode : Pool.Mode) :
    (allocate kind mode).Blind Front.Spent Front.Spent := by
  intro f hf
  have hnew := Pool.allocate_of_free_nil hf kind mode
  have hother := fun b => Pool.allocate_withReuse hf b kind mode
  rw [hnew] at hother
  exact Or.inr ⟨_, f.withPool { f.pool with next := f.pool.next + 1 }, hf,
    allocate_gives kind mode hnew, fun b => allocate_gives kind mode (f := f.withReuse b) (hother b)⟩

theorem allocateFor_fails (v : ValueId) (kind : Kind) (mode : Pool.Mode) {f : Front}
    {e : Pool.Misuse} {q : Pool} (h : f.pool.allocateFor v kind mode = (.error e, q)) :
    (allocateFor v kind mode).Fails f fun _ => True := by
  refine .get fun w hw => ?_
  have hp : w.pool = f.pool := congrArg Front.pool hw
  refine (noteAll_gives _ f).fails ?_
  rw [hp, h]
  exact (modify_gives (g := f.withPool q) fun w' hw' => by rw [← hw']; rfl).fails (.throw trivial)

theorem allocateFor_blind (v : ValueId) (kind : Kind) (mode : Pool.Mode) :
    (allocateFor v kind mode).Blind Front.Spent Front.Spent := by
  intro f hf
  have hfree := Pool.free_allocateFor hf v kind mode
  have hother := fun b => Pool.allocateFor_withReuse hf b v kind mode
  rcases h : f.pool.allocateFor v kind mode with ⟨e | s, q⟩
  · exact Or.inl (allocateFor_fails v kind mode h)
  · rw [h] at hfree hother
    exact Or.inr ⟨s, f.withPool q, hfree, allocateFor_gives v kind mode h, fun b =>
      allocateFor_gives v kind mode (f := f.withReuse b) (hother b)⟩

theorem recycle_blind (s : Slot) : (recycle s).Blind (fun _ => True) fun _ => True := by
  intro f _
  have hother := fun b => Pool.recycle_withReuse f.pool b s
  cases h : f.pool.recycle s with
  | error e =>
    refine Or.inl (.get fun w hw => ?_)
    have hp : w.pool = f.pool := congrArg Front.pool hw
    rw [hp, h]
    exact .throw trivial
  | ok q =>
    rw [h] at hother
    exact Or.inr ⟨(), f.withPool q, trivial, recycle_gives s h, fun b =>
      recycle_gives s (f := f.withReuse b) (hother b)⟩

end Walk.Step

open Walk.Step

/-- The moves are ordered in the same way. -/
theorem Move.order_blind (limit : Nat) (pending : List Move) :
    (order (fun kind => Walk.allocate kind .shared) (fun step => Walk.note (.moved step)) limit
      pending).Blind Front.Spent Front.Spent := by
  induction limit generalizing pending with
  | zero => exact .pure []
  | succ limit ih =>
    cases pending with
    | nil => exact .pure []
    | cons first rest =>
      rw [order]
      split
      · exact (note_blind _).bind fun _ => (ih _).bind fun _ => .pure _
      · exact (allocate_blind _ _).bind fun _ => (note_blind _).bind fun _ =>
          (ih _).bind fun _ => .pure _

namespace Job

variable (j : Job)

theorem fetch_blind (id : ValueId) : (j.fetch id).Blind Front.Spent Front.Spent := by
  rw [fetch]
  cases j.trace.get? id with
  | some v => exact .pure v
  | none => exact .throw _

theorem slotOf_blind (id : ValueId) (kind : Kind) :
    (j.slotOf id kind).Blind Front.Spent Front.Spent := by
  rw [slotOf]
  split
  · exact .throw _
  · exact allocateFor_blind _ _ _

theorem use_blind (id : ValueId) : (j.use id).Blind Front.Spent Front.Spent := by
  refine (fetch_blind j id).bind fun v => ?_
  cases v with
  | constant c => exact .pure _
  | untracked => exact .pure _
  | _ => exact (slotOf_blind j _ _).bind fun _ => .pure _

theorem parameter_blind (id : ValueId) : (j.parameter id).Blind Front.Spent Front.Spent := by
  refine (fetch_blind j id).bind fun v => ?_
  cases v with
  | atEntry n kind flags =>
    have hrest : ∀ slot, (if kind.isWide then do
        return [slot, ← Walk.allocate .void .exclusive] else return [slot] :
          Walk.Step (List Slot)).Blind Front.Spent Front.Spent := by
      intro slot
      split
      · exact (allocate_blind _ _).bind fun _ => .pure _
      · exact .pure _
    dsimp only
    split
    · exact (slotOf_blind j _ _).bind hrest
    · exact (allocate_blind _ _).bind hrest
  | _ => exact .throw _

theorem writeMove_blind (write : Trace.Write) :
    (j.writeMove write).Blind Front.Spent Front.Spent := by
  refine (use_blind j _).bind fun source => (use_blind j _).bind fun destination => ?_
  cases destination with
  | slot d =>
    dsimp only
    split
    · exact (note_blind _).bind fun _ => .pure _
    · exact .pure _
  | _ => exact .throw _

/-- The moves are the same, and what they leave differs in the setting only. -/
theorem writeBack_blind : j.writeBack.Blind Front.Spent fun _ => True := by
  have hrecycle : ∀ slots : List Slot, (slots.forM Walk.recycle).Blind (fun _ => True) fun _ => True :=
    fun slots => .forM recycle_blind slots
  refine (Blind.mapM (writeMove_blind j) _).bind fun moves => (Move.order_blind _ _).bind fun steps =>
    (note_blind _).bind fun _ => (prepend_blind _).bind fun _ f _ => hrecycle _ f trivial

end Job

namespace Course

open Job

variable {t : Trace} {settings : Settings} {b : Bool} {c : Course t settings}
  {d : Course t { settings with reuse := b }}

/-- Courses of one trace with and without reuse are the same before the body. -/
theorem twin
    (hparams : (t.entry.mapM (ofTrace t settings).parameter).Gives (Session.openingFront settings)
      c.parameters ⟨c.entered, [], []⟩)
    (hback : (ofTrace t settings).writeBack.Gives ⟨c.entered, [], []⟩ () c.afterMoves)
    (hparams' : (t.entry.mapM (ofTrace t { settings with reuse := b }).parameter).Gives
      (Session.openingFront { settings with reuse := b }) d.parameters ⟨d.entered, [], []⟩)
    (hback' : (ofTrace t { settings with reuse := b }).writeBack.Gives ⟨d.entered, [], []⟩ ()
      d.afterMoves) :
    d.parameters = c.parameters ∧ d.afterMoves = c.afterMoves.withReuse b := by
  have hopen : (Session.openingFront settings).Spent := rfl
  obtain ⟨hspent, hparams₂⟩ :=
    (Blind.mapM (parameter_blind (ofTrace t settings)) t.entry).gives hopen hparams b
  obtain ⟨hp, he⟩ := hparams₂.unique hparams'
  obtain ⟨-, hback₂⟩ := (writeBack_blind (ofTrace t settings)).gives hspent hback b
  rw [he] at hback₂
  exact ⟨hp.symm, (hback₂.unique hback').2.symm⟩

/-- Nothing before the body changes the setting. -/
theorem reuse_written
    (hparams : (t.entry.mapM (ofTrace t settings).parameter).Gives (Session.openingFront settings)
      c.parameters ⟨c.entered, [], []⟩)
    (hback : (ofTrace t settings).writeBack.Gives ⟨c.entered, [], []⟩ () c.afterMoves) :
    c.written.reuse = settings.reuse := by
  -- a course is its own twin for the setting that it has
  have htwin := (twin (d := c) (b := settings.reuse) hparams hback hparams hback).2
  have hpool : c.written = c.written.withReuse settings.reuse := congrArg Front.pool htwin
  rw [hpool]
  rfl

end Course

end LoopTrace
