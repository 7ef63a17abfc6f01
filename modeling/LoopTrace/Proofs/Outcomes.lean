import LoopTrace.Proofs.Course

/-!
# What comes of a lowering

For an accepted trace there are three outcomes: a routine, a fault that names what cannot be lowered
yet, and a breach. A walk that comes to the body keeps to its course from then on, and ends with the
course's routine unless it meets something that cannot be lowered (`Course.lower_spec`,
`Course.lower_fails`). What keeps it from coming there is a local, or a source of a write, that carries
nothing (`Course.untilMoves_fails`). Which of the outcomes it is, is settled by the trace alone
(`Trace.lower_cases`).
-/

namespace LoopTrace

open Walk.Step

namespace Job

open Walk

/-! ### Up to the moves -/

/-- The walk up to the moves into the next iteration: the parameters, and the moves before they are
ordered. -/
def untilMoves (j : Job) : Walk.Step (List (List Slot) × List Move) := do
  note (.started j.trace.anchor j.trace.position j.trace.body.length j.trace.prologue.length)
  enter .body
  note (.emitted Layout.bailoutId 0 false)
  let parameters ← j.trace.entry.mapM j.parameter
  note (.emitted Layout.lastId 1 false)
  let moves ← j.trace.writes.mapM j.writeMove
  return (parameters, moves.filterMap id)

/-- The walk goes that far, and what it orders then are these moves. -/
theorem lower_eq_untilMoves (j : Job) :
    ∃ rest : List (List Slot) → List Move.Step → Walk.Step Routine,
      j.lower = j.untilMoves >>= fun p =>
        Move.schedule (fun kind => allocate kind .shared) (fun step => note (.moved step)) p.2 >>=
          rest p.1 := by
  apply Exists.intro
  simp only [lower, lowerLoop, writeBack, untilMoves, bind_assoc, pure_bind]
  rfl

end Job

namespace Course

open Job

variable {t : Trace} {settings : Settings}

/-- What is known of the locals on entry if none that is read carries nothing. -/
theorem entry_carries (hacc : t.Accepted) (hentry : ∀ id ∈ t.entry, t.Reads id → ¬ t.Voids id) :
    ∀ id ∈ t.entry, ∃ n kind flags, t.get? id = some (.atEntry n kind flags) ∧
      (flags.read = true → kind ≠ .void) := by
  intro id hid
  obtain ⟨n, kind, flags, hv⟩ := hacc.entry id hid
  exact ⟨n, kind, flags, hv, fun hr hk =>
    hentry id hid ⟨n, kind, flags, hv, hr⟩ ⟨_, hv, hk, by simp⟩⟩

/-- The local that a write goes to needs a slot. -/
theorem destination_needsSlot (hentry : ∀ id ∈ t.entry, t.Reads id → ¬ t.Voids id)
    {write : Trace.Write} (hw : write ∈ t.writes) :
    ∃ v, t.get? write.destination = some v ∧ v.needsSlot = true := by
  obtain ⟨⟨he, n, kind, flags, hv, hr⟩, -⟩ := carried_of_mem_writes hw
  exact ⟨_, hv, decide_eq_true fun hk =>
    hentry _ he ⟨n, kind, flags, hv, hr⟩ ⟨_, hv, hk, by simp⟩⟩

/-- Before the body nothing goes wrong if what is to have a slot carries something. -/
theorem exists_course (hacc : t.Accepted) (h : ¬ t.Valueless) :
    ∃ c : Course t settings,
      (t.entry.mapM (ofTrace t settings).parameter).Gives (Session.openingFront settings)
      c.parameters
        ⟨c.entered, [], []⟩ ∧
      (ofTrace t settings).writeBack.Gives ⟨c.entered, [], []⟩ () c.afterMoves := by
  obtain ⟨hentry, hwrites⟩ := Trace.not_valueless_iff.1 h
  obtain ⟨pss, q, hparams, henters⟩ := parameters_gives (j := ofTrace t settings)
    (entry_carries hacc hentry) (f := Session.openingFront settings) fits_opening rfl rfl
  have hwritable : ∀ write ∈ t.writes, (ofTrace t settings).Writable write := by
    intro write hw
    obtain ⟨v, hsource, -⟩ := hacc.tail write.source (carried_of_mem_writes hw).2
    refine ⟨⟨v, hsource, fun hk => ?_⟩, destination_needsSlot hentry hw⟩
    by_contra hne
    exact hwrites write hw ⟨v, hsource, hk, hne⟩
  obtain ⟨steps, q', hback, hwb⟩ := writeBack_gives (j := ofTrace t settings) (f := ⟨q, [], []⟩)
    (henters.fits fits_opening) (henters.free rfl) henters.extension.released hwritable
  refine ⟨⟨pss, q, steps, q', henters, hwritable, hwb⟩, hparams, ?_⟩
  have : Move.stepCode steps ++ [] = Move.stepCode steps := List.append_nil _
  rw [this] at hback
  exact hback

/-- The pool once everything that the moves use has its slot. -/
def used (c : Course t settings) : Pool := (ofTrace t settings).written c.entered

/-- The moves into the next iteration, before they are ordered. -/
def moves (c : Course t settings) : List Move :=
  t.writes.filterMap ((ofTrace t settings).moveIn c.used)

/-- Where the walk stands when it has the moves. -/
theorem untilMoves_gives (c : Course t settings)
    (hparams : (t.entry.mapM (ofTrace t settings).parameter).Gives (Session.openingFront settings)
      c.parameters ⟨c.entered, [], []⟩) :
    (ofTrace t settings).untilMoves.Gives (Session.openingFront settings) (c.parameters, c.moves)
      ⟨c.used, [], []⟩ := by
  have hmoves := writeMoves_gives (j := ofTrace t settings) (f := ⟨c.entered, [], []⟩) c.writable
    c.fits_entered c.released_entered
  refine (note_gives _ _).bind ((enter_gives _ _).bind ((note_gives _ _).bind
    (hparams.bind ((note_gives _ _).bind (hmoves.bind ?_)))))
  rw [List.filterMap_map]
  exact .pure ⟨c.used, [], []⟩ (c.parameters, c.moves)

/-- The walk does not come to the moves if something that is to have a slot carries nothing. -/
theorem untilMoves_fails (hacc : t.Accepted) (h : t.Valueless) :
    (ofTrace t settings).untilMoves.Fails (Session.openingFront settings) Broken := by
  refine (note_gives _ _).fails ((enter_gives _ _).fails ((note_gives _ _).fails ?_))
  by_cases hno : ∃ id ∈ t.entry, t.Reads id ∧ t.Voids id
  · exact (parameters_fails (j := ofTrace t settings) hacc.entry hno fits_opening rfl rfl).bind
  · have hentry : ∀ id ∈ t.entry, t.Reads id → ¬ t.Voids id := fun id hid hr hv =>
      hno ⟨id, hid, hr, hv⟩
    obtain ⟨pss, q, hparams, henters⟩ := parameters_gives (j := ofTrace t settings)
      (entry_carries hacc hentry) (f := Session.openingFront settings) fits_opening rfl rfl
    refine hparams.fails ((note_gives _ _).fails (Fails.bind ?_))
    refine writeMoves_fails (j := ofTrace t settings) (f := ⟨q, [], []⟩)
      (fun write hw => destination_needsSlot hentry hw) (fun write hw => ?_) (h.resolve_left hno)
      (henters.fits fits_opening) henters.extension.released
    obtain ⟨v, hv, -⟩ := hacc.tail _ (carried_of_mem_writes hw).2
    exact ⟨v, hv⟩

variable {c : Course t settings}

/-- The last instructions of the body are passed, unless a call to splice in is among them. -/
theorem passBody_spec (hacc : t.Accepted) {pre passed : List ValueId} (h : pre ++ passed = t.body) :
    ((∀ id ∈ passed, ¬ t.Inlines id) →
      (passed.reverse.forM (ofTrace t settings).lowerBody).Gives c.afterMoves ()
        ((ofTrace t settings).passAll c.afterMoves passed)) ∧
    ((∃ id ∈ passed, t.Inlines id) →
      (passed.reverse.forM (ofTrace t settings).lowerBody).Fails c.afterMoves NotYet) :=
  forM_reverse_spec (j := ofTrace t settings) hacc (x := (ofTrace t settings).lowerBody)
    (fun hs hready hid => lowerBody_gives hready hacc hs hid) (fun f hid => lowerBody_fails f hid)
    (Trace.stream_of_body h) (c.ready_afterMoves hacc)

/-- The last instructions of the prologue are passed, unless a call to splice in or a guard is among
them. -/
theorem passPrologue_spec (hacc : t.Accepted) {pre passed : List ValueId}
    (h : pre ++ passed = t.prologue) :
    ((∀ id ∈ passed, ¬ (t.Inlines id ∨ t.Guards id)) →
      (passed.reverse.forM (ofTrace t settings).lowerPrologue).Gives c.beforePrologue ()
        ((ofTrace t settings).passAll c.beforePrologue passed)) ∧
    ((∃ id ∈ passed, t.Inlines id ∨ t.Guards id) →
      (passed.reverse.forM (ofTrace t settings).lowerPrologue).Fails c.beforePrologue NotYet) :=
  forM_reverse_spec (j := ofTrace t settings) hacc (x := (ofTrace t settings).lowerPrologue)
    (E := NotYet) (B := fun id => t.Inlines id ∨ t.Guards id)
    (fun hs hready hid =>
      lowerPrologue_gives hready hacc hs (fun h => hid (Or.inl h)) fun h => hid (Or.inr h))
    (fun f hid => lowerPrologue_fails f hid) (Trace.stream_of_prologue h) (f := c.beforePrologue)
    (ready_afterBody hacc)

/-- The loop, from a lowering that has come to the body. -/
theorem lowerLoop_spec (hacc : t.Accepted)
    (hparams : (t.entry.mapM (ofTrace t settings).parameter).Gives (Session.openingFront settings)
      c.parameters ⟨c.entered, [], []⟩)
    (hback : (ofTrace t settings).writeBack.Gives ⟨c.entered, [], []⟩ () c.afterMoves) :
    ((∀ id ∈ t.body, ¬ t.Inlines id) →
      (ofTrace t settings).lowerLoop.Gives (Session.openingFront settings) c.parameters.flatten
      c.afterBody) ∧
    ((∃ id ∈ t.body, t.Inlines id) →
      (ofTrace t settings).lowerLoop.Fails (Session.openingFront settings) NotYet) := by
  obtain ⟨hgives, hfails⟩ := passBody_spec (c := c) hacc (List.nil_append t.body)
  refine ⟨fun h => ?_, fun h => ?_⟩
  · refine (note_gives _ _).bind
      (hparams.bind ((note_gives _ _).bind (hback.bind ((hgives h).bind ?_))))
    exact (enter_gives _ _).bind (.get fun w _ => (note_gives _ _).bind (.pure _ _))
  · exact (note_gives _ _).fails
      (hparams.fails ((note_gives _ _).fails (hback.fails (hfails h).bind)))

/-- The prologue, from a lowering that has come to it. -/
theorem lowerEntry_spec (hacc : t.Accepted) :
    ((∀ id ∈ t.prologue, ¬ (t.Inlines id ∨ t.Guards id)) →
      (ofTrace t settings).lowerEntry.Gives c.afterBody () c.final) ∧
    ((∃ id ∈ t.prologue, t.Inlines id ∨ t.Guards id) →
      (ofTrace t settings).lowerEntry.Fails c.afterBody NotYet) := by
  obtain ⟨hgives, hfails⟩ := passPrologue_spec (c := c) hacc (List.nil_append t.prologue)
  refine ⟨fun h => ?_, fun h => ?_⟩
  · refine (openBlock_gives _).bind ((hgives h).bind (.get fun w _ => ?_))
    split
    · exact note_gives _ _
    · exact note_gives _ _
  · exact (openBlock_gives _).fails (hfails h).bind

/-- A trace that holds something that cannot be lowered yet is turned down when the walk comes to
it. -/
theorem lower_fails (hacc : t.Accepted) (h : ¬ t.Lowerable)
    (hparams : (t.entry.mapM (ofTrace t settings).parameter).Gives (Session.openingFront settings)
      c.parameters ⟨c.entered, [], []⟩)
    (hback : (ofTrace t settings).writeBack.Gives ⟨c.entered, [], []⟩ () c.afterMoves) :
    (ofTrace t settings).lower.Fails (Session.openingFront settings) NotYet := by
  obtain ⟨hloop, hloop'⟩ := lowerLoop_spec hacc hparams hback
  refine (note_gives _ _).fails ((enter_gives _ _).fails ?_)
  by_cases hbody : ∃ id ∈ t.body, t.Inlines id
  · exact (hloop' hbody).bind
  · have hprologue : ∃ id ∈ t.prologue, t.Inlines id ∨ t.Guards id := by
      by_contra hno
      refine h ⟨fun id hid hin => ?_, fun id hid hg => hno ⟨id, hid, Or.inr hg⟩⟩
      rcases List.mem_append.1 hid with hid | hid
      · exact hno ⟨id, hid, Or.inl hin⟩
      · exact hbody ⟨id, hid, hin⟩
    refine (hloop fun id hid hin => hbody ⟨id, hid, hin⟩).fails ((enter_gives _ _).fails ?_)
    exact ((lowerEntry_spec hacc).2 hprologue).bind

/-- What the lowering of any other trace comes to is settled by the verification of its routine. -/
theorem lower_spec (hacc : t.Accepted) (h : t.Lowerable)
    (hparams : (t.entry.mapM (ofTrace t settings).parameter).Gives (Session.openingFront settings)
      c.parameters ⟨c.entered, [], []⟩)
    (hback : (ofTrace t settings).writeBack.Gives ⟨c.entered, [], []⟩ () c.afterMoves) :
    ((settings.verify = true → c.routine.verify = .ok ()) →
      (ofTrace t settings).lower.Gives (Session.openingFront settings) c.routine c.final) ∧
    (settings.verify = true → c.routine.verify ≠ .ok () →
      (ofTrace t settings).lower.Fails (Session.openingFront settings) Broken) := by
  have hloop := (lowerLoop_spec hacc hparams hback).1 h.spliced_body
  have hentry := (lowerEntry_spec (c := c) hacc).1 fun id hid hno =>
    hno.elim (h.spliced_prologue id hid) (h.prologue id hid)
  have hroutine : ∀ w : Walk, w.front = c.final →
      (ofTrace t settings).routine c.parameters.flatten w = c.routine := by
    rintro w hw
    obtain ⟨hp, hc, hl⟩ := Front.mk.inj
      (hw : Front.mk w.pool w.code w.later = ⟨c.final.pool, c.final.code, c.final.later⟩)
    rw [Job.routine, hp, hc, hl]
    rfl
  refine ⟨fun hv => ?_, fun hverify hv => ?_⟩
  · refine (note_gives _ _).bind
      ((enter_gives _ _).bind (hloop.bind ((enter_gives _ _).bind (hentry.bind ?_))))
    refine .get fun w hw => ?_
    rw [hroutine w hw]
    have hverify : ((ofTrace t settings).verify c.routine).Gives c.final () c.final := by
      rw [Job.verify]
      split
      · next hs =>
        rw [hv hs]
        exact .pure _ _
      · exact .pure _ _
    refine hverify.bind ((note_gives _ _).bind ?_)
    split
    · exact (note_gives _ _).bind ((enter_gives _ _).bind (.pure _ _))
    · exact (enter_gives _ _).bind (.pure _ _)
  · refine (note_gives _ _).fails
      ((enter_gives _ _).fails (hloop.fails ((enter_gives _ _).fails (hentry.fails ?_))))
    refine .get fun w hw => ?_
    rw [hroutine w hw]
    refine Fails.bind ?_
    have hset : (ofTrace t settings).settings.verify = true := hverify
    rw [Job.verify, if_pos hset]
    cases hr : c.routine.verify with
    | ok u => exact absurd hr hv
    | error e => exact .throw ⟨_, rfl⟩

end Course

namespace Trace

variable {t : Trace} {settings : Settings}

/-- Every local that is used is carried around the loop. -/
def SelfContained (t : Trace) : Prop :=
  ∀ u, t.Used u → ∀ n kind flags, t.get? u = some (.atEntry n kind flags) → t.Carried u

/-- A local or a write that is to have a slot and carries nothing is a breach. -/
theorem lower_breaks (hcheck : t.check = .ok ()) (h : t.Valueless) :
    ∃ why, t.lower settings = .error (.breach why) := by
  obtain ⟨rest, he⟩ := (Job.ofTrace t settings).lower_eq_untilMoves
  have hfails : (Job.ofTrace t settings).lower.Fails (Session.openingFront settings) Job.Broken :=
    he ▸ (Course.untilMoves_fails (check_eq_ok_iff.1 hcheck) h).bind
  obtain ⟨e, he, why, rfl⟩ := lower_eq_of_fails hcheck hfails
  exact ⟨why, he⟩

/-- What a lowering comes to if all that is to have a slot carries something. -/
theorem lower_cases (hcheck : t.check = .ok ()) (hvalues : ¬ t.Valueless) :
    (¬ t.Lowerable → ∃ what, t.lower settings = .error (.unsupported what)) ∧
      (t.Lowerable → (settings.verify = true → t.SelfContained) →
        ∃ c : Course t settings, t.lower settings = .ok c.routine) ∧
      (t.Lowerable → settings.verify = true → ¬ t.SelfContained →
        ∃ why, t.lower settings = .error (.breach why)) := by
  have hacc := check_eq_ok_iff.1 hcheck
  obtain ⟨c, hparams, hback⟩ := Course.exists_course hacc hvalues
  refine ⟨fun hno => ?_, fun h hv => ?_, fun h hverify hno => ?_⟩
  · obtain ⟨e, he, what, rfl⟩ :=
      lower_eq_of_fails hcheck (Course.lower_fails hacc hno hparams hback)
    exact ⟨what, he⟩
  · have hr := c.verify_routine hcheck h
    have hgives := (Course.lower_spec hacc h hparams hback).1 fun hs => hr.2 (hv hs)
    exact ⟨c, lower_eq_of_gives hcheck hgives⟩
  · have hr := c.verify_routine hcheck h
    have hfails := (Course.lower_spec hacc h hparams hback).2 hverify fun hok => hno (hr.1 hok)
    obtain ⟨e, he, why, rfl⟩ := lower_eq_of_fails hcheck hfails
    exact ⟨why, he⟩

/-- A routine that comes out is that of a course, and the trace holds nothing that cannot be lowered
yet. -/
theorem exists_course_of_lower (hcheck : t.check = .ok ()) {r : Routine}
    (hr : t.lower settings = .ok r) : t.Lowerable ∧ ∃ c : Course t settings, r = c.routine := by
  have hfails : ∀ {e : Fault}, t.lower settings ≠ .error e := by
    intro e he
    rw [hr] at he
    cases he
  have hvalues : ¬ t.Valueless := fun hno => by
    obtain ⟨why, hw⟩ := lower_breaks hcheck hno
    exact hfails hw
  obtain ⟨hnot, hyes, hbreach⟩ := @lower_cases t settings hcheck hvalues
  have h : t.Lowerable := by
    by_contra hno
    obtain ⟨what, hw⟩ := hnot hno
    exact hfails hw
  have hself : settings.verify = true → t.SelfContained := by
    intro hverify
    by_contra hno
    obtain ⟨why, hw⟩ := hbreach h hverify hno
    exact hfails hw
  obtain ⟨c, hc⟩ := hyes h hself
  exact ⟨h, c, Except.ok.inj (hr.symm.trans hc)⟩

/-- A loop that counts a local down while it is positive. -/
def countdown : Trace where
  anchor := ⟨"Sample", "countdown", [.int], .void, .managed⟩
  position := 2
  values := #[.atEntry 0 .int ⟨true, true⟩, .constant (.int 1), .operation .intSub [⟨0⟩, ⟨1⟩],
    .guard .int .greaterEqual ⟨2⟩ ⟨1⟩
      (some ⟨⟨"Sample", "countdown", [.int], .void, .managed⟩, 7, [⟨2⟩], []⟩)]
  prologue := []
  body := [⟨2⟩, ⟨3⟩]
  entry := [⟨0⟩]
  tail := [⟨2⟩]

theorem selfContained_countdown : countdown.SelfContained := by
  rintro ⟨u⟩ - n kind flags hv
  obtain rfl : u = 0 := by
    rcases u with _ | _ | _ | _ | u <;> simp [countdown, get?] at hv ⊢
  exact ⟨by decide, _, _, _, rfl, rfl⟩

end Trace

end LoopTrace
