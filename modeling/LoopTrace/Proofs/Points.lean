import LoopTrace.Proofs.Assembled

/-!
# Points of the walk

Once the moves into the next iteration are there, the walk goes from instruction to instruction. Between two
of them it stands at a `Point`: behind the last instructions of the body, behind the body when the jump back
has its target, behind the last instructions of the prologue, or at its end. Every lowering goes through all
of them unless it fails before (`Job.lower_eq_walkTo`), and where it stands at a point is a function of its
course (`Trace.Stands.exists_course`).

The blocks that are there at a point are what the first of the calls for the trace leave
(`Course.builds_point`).
-/

namespace LoopTrace

namespace Trace

/-- A point between two instructions of a trace, as the walk comes to them. -/
inductive Point (t : Trace) where
  /-- The last instructions of the body have been passed. -/
  | body (passed : List ValueId) (suffix : passed <:+ t.body)
  /-- The body has been passed, and the jump back leads to its first block. -/
  | closed
  /-- The last instructions of the prologue have been passed as well. -/
  | prologue (passed : List ValueId) (suffix : passed <:+ t.prologue)
  /-- The prologue's block is in its place, or has been dropped. -/
  | entered

namespace Point

variable {t : Trace}

/-- The instructions of the body that have been passed. -/
def ofBody : t.Point → List ValueId
  | .body passed _ => passed
  | _ => t.body

/-- The instructions of the prologue that have been passed. -/
def ofPrologue : t.Point → List ValueId
  | .prologue passed _ => passed
  | .entered => t.prologue
  | _ => []

/-- The instructions that have been passed, in order. -/
def passed (point : t.Point) : List ValueId := point.ofPrologue ++ point.ofBody

/-- The blocks that are there at a point, from the code of a front. -/
def assembly (bailout : List Instruction) (f : Front) : t.Point → Assembly
  | .body .. => Layout.pending bailout f.row
  | .closed => Layout.closed ⟨[], f.row, bailout⟩
  | .prologue .. => Layout.filled ⟨f.code, f.later, bailout⟩
  | .entered => Layout.emitted ⟨f.code, f.later, bailout⟩

/-- Nothing that has been passed keeps a lowering from going on. -/
structure Clear (point : t.Point) : Prop where
  body : ∀ id ∈ point.ofBody, ¬ t.Inlines id
  prologue : ∀ id ∈ point.ofPrologue, ¬ (t.Inlines id ∨ t.Guards id)

theorem exists_of_not_clear {point : t.Point} (h : ¬ point.Clear) :
    (∃ id ∈ point.ofBody, t.Inlines id) ∨
      ∃ id ∈ point.ofPrologue, t.Inlines id ∨ t.Guards id := by
  by_contra hno
  rw [not_or] at hno
  exact h ⟨fun id hid hin => hno.1 ⟨id, hid, hin⟩, fun id hid hbad => hno.2 ⟨id, hid, hbad⟩⟩

end Point

end Trace

namespace Job

open Walk Walk.Step

variable (j : Job)

/-- The beginning of the walk. -/
def start : Walk.Step Unit := do
  note (.started j.trace.anchor j.trace.position j.trace.body.length j.trace.prologue.length)
  enter .body

/-- The prologue's block is opened, and instructions are passed. -/
def openPrologue (passed : List ValueId) : Walk.Step Unit := do
  openBlock
  passed.reverse.forM j.lowerPrologue

/-- The walk from its beginning through the loop to some part of it after the loop. -/
def pastLoop (x : Walk.Step Unit) : Walk.Step (List Slot) := do
  j.start
  let parameters ← j.lowerLoop
  enter .prologue
  x
  return parameters

/-- The walk from its beginning to a point; it has the parameters by then. -/
def walkTo : j.trace.Point → Walk.Step (List Slot)
  | .body passed _ => do
    j.start
    note (.emitted Layout.bailoutId 0 false)
    let parameters ← j.trace.entry.mapM j.parameter
    note (.emitted Layout.lastId 1 false)
    j.writeBack
    passed.reverse.forM j.lowerBody
    return parameters.flatten
  | .closed => do
    j.start
    j.lowerLoop
  | .prologue passed _ => j.pastLoop (j.openPrologue passed)
  | .entered => j.pastLoop j.lowerEntry

/-- The instructions of a stream are passed one after another, the last ones first. -/
theorem forM_reverse_append {ids passed : List ValueId} (pre : List ValueId) (h : pre ++ passed = ids)
    (x : ValueId → Walk.Step Unit) :
    ids.reverse.forM x = (do passed.reverse.forM x; pre.reverse.forM x) := by
  rw [← h, List.reverse_append]
  exact List.forM_append

/-- From a point of the body the walk goes on with the instructions before it. -/
theorem walkTo_closed_eq {pre passed : List ValueId} (h : pre ++ passed = j.trace.body) :
    j.walkTo .closed = j.walkTo (.body passed ⟨pre, h⟩) >>= fun parameters => do
      pre.reverse.forM j.lowerBody
      enter .loopBack
      note (.loopedBack Layout.lastId (← get).current)
      return parameters := by
  simp only [walkTo, lowerLoop, forM_reverse_append pre h, bind_assoc, pure_bind]

/-- A lowering comes to every point and goes on from there. -/
theorem lower_eq_walkTo (point : j.trace.Point) :
    ∃ rest : List Slot → Walk.Step Routine, j.lower = j.walkTo point >>= rest := by
  have hclosed : ∃ rest : List Slot → Walk.Step Routine, j.lower = j.walkTo .closed >>= rest := by
    apply Exists.intro
    simp only [lower, walkTo, start, bind_assoc]
    rfl
  cases point with
  | body passed suffix =>
    obtain ⟨pre, hpre⟩ := suffix
    obtain ⟨rest, hrest⟩ := hclosed
    rw [walkTo_closed_eq j hpre, bind_assoc] at hrest
    exact ⟨_, hrest⟩
  | closed => exact hclosed
  | prologue passed suffix =>
    obtain ⟨pre, hpre⟩ := suffix
    apply Exists.intro
    simp only [lower, lowerEntry, walkTo, pastLoop, start, openPrologue,
      forM_reverse_append pre hpre, bind_assoc, pure_bind]
    rfl
  | entered =>
    apply Exists.intro
    simp only [lower, walkTo, pastLoop, start, bind_assoc, pure_bind]
    rfl

/-- A walk to a point comes to the ordering of the moves first. -/
theorem walkTo_eq_untilMoves (point : j.trace.Point) :
    ∃ rest : List (List Slot) → List Move.Step → Walk.Step (List Slot),
      j.walkTo point = j.untilMoves >>= fun p =>
        Move.schedule (fun kind => allocate kind .shared) (fun step => note (.moved step)) p.2 >>=
          rest p.1 := by
  cases point with
  | body passed suffix =>
    apply Exists.intro
    simp only [walkTo, start, writeBack, untilMoves, bind_assoc, pure_bind]
    rfl
  | closed =>
    apply Exists.intro
    simp only [walkTo, start, lowerLoop, writeBack, untilMoves, bind_assoc, pure_bind]
    rfl
  | prologue passed suffix =>
    apply Exists.intro
    simp only [walkTo, pastLoop, start, lowerLoop, writeBack, untilMoves, bind_assoc, pure_bind]
    rfl
  | entered =>
    apply Exists.intro
    simp only [walkTo, pastLoop, start, lowerLoop, writeBack, untilMoves, bind_assoc, pure_bind]
    rfl

/-! ### The calls until a point -/

section Calls

variable (place : Placement) (steps : List Move.Step)

/-- The code of the bailout block. -/
def bailout : List Instruction := j.settings.abi.bailoutCode j.tagSlot

/-- The calls until the moves are there. -/
def firstCalls : List Assembly.Call :=
  [.create .synthetic, .emit Layout.bailoutId false, .prependTo Layout.bailoutId j.bailout,
    .create .normal, .emit Layout.lastId false, .prependTo Layout.lastId [.jump none],
    .prependTo Layout.lastId (Move.stepCode steps)]

/-- The calls until the jump back has its target. -/
def loopCalls : List Assembly.Call :=
  j.firstCalls steps ++ j.callsFor place 1 j.trace.body ++
    [.resolveJumps Layout.lastId ⟨j.trace.guards.length + 1⟩,
      .link Layout.lastId ⟨j.trace.guards.length + 1⟩]

/-- The calls until a point. -/
def callsTo : j.trace.Point → List Assembly.Call
  | .body passed _ => j.firstCalls steps ++ j.callsFor place 1 passed
  | .closed => j.loopCalls place steps
  | .prologue passed _ =>
    j.loopCalls place steps ++
      ([.create .normal] ++ j.callsFor place (j.trace.guards.length + 1 + 1) passed)
  | .entered => j.calls place steps

theorem callsFor_append (n : Nat) (pre ids : List ValueId) :
    j.callsFor place n (pre ++ ids) =
      j.callsFor place n ids ++ j.callsFor place (n + (ids.filter j.trace.isGuard).length) pre := by
  induction pre with
  | nil => exact (List.append_nil _).symm
  | cons id pre ih =>
    have hcount : n + ((pre ++ ids).filter j.trace.isGuard).length =
        n + (ids.filter j.trace.isGuard).length + (pre.filter j.trace.isGuard).length := by
      rw [List.filter_append, List.length_append]
      omega
    rw [List.cons_append, callsFor, ih, hcount, List.append_assoc, callsFor]

/-- At each point the first of the calls for the trace have been made. -/
theorem callsTo_begins (point : j.trace.Point) :
    j.callsTo place steps point <+: j.calls place steps := by
  have hclosed : j.loopCalls place steps <+: j.calls place steps := List.prefix_append _ _
  cases point with
  | body passed suffix =>
    obtain ⟨pre, hpre⟩ := suffix
    refine List.IsPrefix.trans ?_ hclosed
    show j.firstCalls steps ++ j.callsFor place 1 passed <+: j.loopCalls place steps
    rw [loopCalls, ← hpre, callsFor_append, ← List.append_assoc, List.append_assoc]
    exact List.prefix_append _ _
  | closed => exact hclosed
  | prologue passed suffix =>
    obtain ⟨pre, hpre⟩ := suffix
    refine (List.prefix_append_right_inj _).2 ?_
    rw [← hpre, callsFor_append, ← List.append_assoc, List.append_assoc]
    exact List.prefix_append _ _
  | entered => exact List.prefix_rfl

end Calls

end Job

namespace Trace

open Job

/-- The walk over a trace comes to a point, and this is where it stands then. -/
def Stands (t : Trace) (settings : Settings) (point : t.Point) (w : Walk) : Prop :=
  ∃ parameters, ((ofTrace t settings).walkTo point).run.run { pool := (Session.opening settings).2 } =
    (.ok parameters, w)

/-- The blocks that are there when the walk stands at a point. -/
def standing (t : Trace) (settings : Settings) (point : t.Point) (w : Walk) : Assembly :=
  point.assembly (ofTrace t settings).bailout w.front

end Trace

namespace Course

open Job Walk.Step

variable {t : Trace} {settings : Settings} (c : Course t settings)

/-- The front at a point. -/
def frontAt : t.Point → Front
  | .body passed _ => (ofTrace t settings).passAll c.afterMoves passed
  | .closed => c.afterBody
  | .prologue passed _ => (ofTrace t settings).passAll c.beforePrologue passed
  | .entered => c.final

/-! ### How the walk comes to a point -/

section Walk

variable {c}

theorem start_gives (f : Front) : (ofTrace t settings).start.Gives f () f :=
  (note_gives _ _).bind (enter_gives _ _)

/-- The prologue, as far as it has been passed. -/
theorem openPrologue_spec (hacc : t.Accepted) {pre passed : List ValueId}
    (h : pre ++ passed = t.prologue) :
    ((∀ id ∈ passed, ¬ (t.Inlines id ∨ t.Guards id)) →
      ((ofTrace t settings).openPrologue passed).Gives c.afterBody ()
        ((ofTrace t settings).passAll c.beforePrologue passed)) ∧
    ((∃ id ∈ passed, t.Inlines id ∨ t.Guards id) →
      ((ofTrace t settings).openPrologue passed).Fails c.afterBody NotYet) := by
  obtain ⟨hgives, hfails⟩ := passPrologue_spec (c := c) hacc h
  exact ⟨fun hids => (openBlock_gives _).bind (hgives hids),
    fun hid => (openBlock_gives _).fails (hfails hid)⟩

variable (hacc : t.Accepted)
  (hparams : (t.entry.mapM (ofTrace t settings).parameter).Gives (Session.openingFront settings)
    c.parameters ⟨c.entered, [], []⟩)
  (hback : (ofTrace t settings).writeBack.Gives ⟨c.entered, [], []⟩ () c.afterMoves)

include hacc hparams hback

/-- A part of the walk that comes after the loop and passes instructions of the prologue. -/
theorem pastLoop_spec {x : Walk.Step Unit} {ids : List ValueId} {f : Front}
    (hx : ((∀ id ∈ ids, ¬ (t.Inlines id ∨ t.Guards id)) → x.Gives c.afterBody () f) ∧
      ((∃ id ∈ ids, t.Inlines id ∨ t.Guards id) → x.Fails c.afterBody NotYet)) :
    ((∀ id ∈ t.body, ¬ t.Inlines id) → (∀ id ∈ ids, ¬ (t.Inlines id ∨ t.Guards id)) →
      ((ofTrace t settings).pastLoop x).Gives (Session.openingFront settings) c.parameters.flatten f) ∧
    ((∃ id ∈ t.body, t.Inlines id) ∨ (∃ id ∈ ids, t.Inlines id ∨ t.Guards id) →
      ((ofTrace t settings).pastLoop x).Fails (Session.openingFront settings) NotYet) := by
  obtain ⟨hloop, hloop'⟩ := lowerLoop_spec hacc hparams hback
  refine ⟨fun hbody hids => ?_, fun hbad => (start_gives _).fails ?_⟩
  · exact (start_gives _).bind ((hloop hbody).bind ((enter_gives _ _).bind
      ((hx.1 hids).bind (.pure _ _))))
  · by_cases hbody : ∃ id ∈ t.body, t.Inlines id
    · exact (hloop' hbody).bind
    · refine (hloop fun id hid hin => hbody ⟨id, hid, hin⟩).fails ((enter_gives _ _).fails ?_)
      exact (hx.2 (hbad.resolve_left hbody)).bind

/-- The walk comes to a point exactly if nothing on the way keeps it from going on. -/
theorem walkTo_spec (point : t.Point) :
    (point.Clear → ((ofTrace t settings).walkTo point).Gives (Session.openingFront settings)
      c.parameters.flatten (c.frontAt point)) ∧
    (¬ point.Clear → ((ofTrace t settings).walkTo point).Fails (Session.openingFront settings)
      NotYet) := by
  obtain ⟨hloop, hloop'⟩ := lowerLoop_spec hacc hparams hback
  cases point with
  | body passed suffix =>
    obtain ⟨pre, hpre⟩ := suffix
    obtain ⟨hgives, hfails⟩ := passBody_spec (c := c) hacc hpre
    refine ⟨fun h => ?_, fun h => ?_⟩
    · exact (start_gives _).bind ((note_gives _ _).bind (hparams.bind ((note_gives _ _).bind
        (hback.bind ((hgives h.body).bind (.pure _ _))))))
    · have hbad := Trace.Point.exists_of_not_clear h
      exact (start_gives _).fails ((note_gives _ _).fails (hparams.fails ((note_gives _ _).fails
        (hback.fails (hfails (hbad.resolve_right (by simp [Trace.Point.ofPrologue]))).bind))))
  | closed =>
    refine ⟨fun h => (start_gives _).bind (hloop h.body), fun h => (start_gives _).fails (hloop' ?_)⟩
    exact (Trace.Point.exists_of_not_clear h).resolve_right (by simp [Trace.Point.ofPrologue])
  | prologue passed suffix =>
    obtain ⟨pre, hpre⟩ := suffix
    obtain ⟨hgives, hfails⟩ := pastLoop_spec hacc hparams hback (openPrologue_spec hacc hpre)
    exact ⟨fun h => hgives h.body h.prologue, fun h => hfails (Trace.Point.exists_of_not_clear h)⟩
  | entered =>
    obtain ⟨hgives, hfails⟩ := pastLoop_spec hacc hparams hback (lowerEntry_spec hacc)
    exact ⟨fun h => hgives h.body h.prologue, fun h => hfails (Trace.Point.exists_of_not_clear h)⟩

end Walk

/-! ### What holds at a point -/

variable {point : t.Point}

/-- The walk can go on from every point. -/
theorem ready_frontAt (hacc : t.Accepted) (point : t.Point) :
    (ofTrace t settings).Ready point.passed (c.frontAt point).pool := by
  have hready : ∀ {ids : List ValueId} {p : Pool}, (ofTrace t settings).Ready (ids ++ []) p →
      (ofTrace t settings).Ready ids p := fun h => by rwa [List.append_nil] at h
  cases point with
  | body passed suffix =>
    obtain ⟨pre, hpre⟩ := suffix
    exact hready (Ready.passAll (j := ofTrace t settings) hacc (Trace.stream_of_body hpre)
      (c.ready_afterMoves hacc))
  | closed => exact ready_afterBody hacc
  | prologue passed suffix =>
    obtain ⟨pre, hpre⟩ := suffix
    exact Ready.passAll (j := ofTrace t settings) (f := c.beforePrologue) hacc
      (Trace.stream_of_prologue hpre) (ready_afterBody hacc)
  | entered => exact ready_final hacc

/-- What the walk keeps, it keeps at every point. -/
theorem kept_frontAt (hacc : t.Accepted) (h : point.Clear) :
    (ofTrace t settings).Kept (c.frontAt point) := by
  have hspliced : ∀ id ∈ point.ofPrologue, ¬ t.Inlines id := fun id hid hin =>
    h.prologue id hid (Or.inl hin)
  cases point with
  | body passed suffix => exact kept_body hacc suffix.choose_spec h.body
  | closed => exact kept_body hacc (List.nil_append t.body) h.body
  | prologue passed suffix => exact kept_prologue hacc h.body suffix.choose_spec hspliced
  | entered => exact kept_prologue hacc h.body (List.nil_append t.prologue) hspliced

/-! ### The blocks at a point -/

theorem builds_body (hacc : t.Accepted) {pre passed : List ValueId} (h : pre ++ passed = t.body) :
    Assembly.Builds {}
      ((ofTrace t settings).firstCalls c.steps ++ (ofTrace t settings).callsFor c.placement 1 passed)
      (Layout.pending (ofTrace t settings).bailout
        ((ofTrace t settings).passAll c.afterMoves passed).row) := by
  rw [row_body hacc h]
  exact (Layout.builds_first _).append
    (Layout.builds_callsFor (ofTrace t settings) c.placement (List.cons_ne_nil _ _) passed)

theorem length_row_afterBody (hacc : t.Accepted) : c.afterBody.row.length = t.guards.length + 1 := by
  rw [row_afterBody hacc, length_rowAt, List.length_singleton, Nat.add_comm]
  rfl

theorem chained_afterBody : Layout.Chained (ofTrace t settings).tagSlot c.afterBody.row :=
  chained_passAll (j := ofTrace t settings) c.afterMoves t.body (.last straight_moves)

theorem builds_loop (hacc : t.Accepted) :
    Assembly.Builds {} ((ofTrace t settings).loopCalls c.placement c.steps)
      (Layout.closed ⟨[], c.afterBody.row, (ofTrace t settings).bailout⟩) := by
  have hclosed : (Layout.pending (ofTrace t settings).bailout c.afterBody.row).Builds _ _ :=
    Layout.builds_closed c.chained_afterBody.ne_nil c.chained_afterBody.straight_codeOf
  rw [length_row_afterBody c hacc] at hclosed
  exact (builds_body c hacc (List.nil_append t.body)).append hclosed

/-- The layout of what is there when instructions of the prologue have been passed. -/
def entryLayout (passed : List ValueId) : Layout :=
  ⟨(ofTrace t settings).codeAt c.placement passed, c.afterBody.row, (ofTrace t settings).bailout⟩

theorem entryLayout_eq (hacc : t.Accepted) {pre passed : List ValueId} (h : pre ++ passed = t.prologue)
    (hids : ∀ id ∈ passed, ¬ t.Guards id) :
    (⟨((ofTrace t settings).passAll c.beforePrologue passed).code,
      ((ofTrace t settings).passAll c.beforePrologue passed).later,
      (ofTrace t settings).bailout⟩ : Layout) = c.entryLayout passed := by
  obtain ⟨hcode, hlater⟩ := List.cons.inj (row_prologue (c := c) hacc h hids)
  rw [hcode, hlater, entryLayout]

/-- The blocks that are there at a point are what the calls until then have put together. -/
theorem builds_point (hacc : t.Accepted) (h : point.Clear) :
    Assembly.Builds {} ((ofTrace t settings).callsTo c.placement c.steps point)
      (point.assembly (ofTrace t settings).bailout (c.frontAt point)) := by
  have hguards : ∀ id ∈ point.ofPrologue, ¬ t.Guards id := fun id hid hg =>
    h.prologue id hid (Or.inr hg)
  have hlength : (ofTrace t settings).trace.guards.length + 1 = c.afterBody.row.length :=
    (length_row_afterBody c hacc).symm
  cases point with
  | body passed suffix => exact builds_body c hacc suffix.choose_spec
  | closed => exact builds_loop c hacc
  | prologue passed suffix =>
    have hfilled := Layout.builds_filled (ofTrace t settings) c.placement (l := c.entryLayout passed)
      hguards rfl
    show Assembly.Builds {} ((ofTrace t settings).loopCalls c.placement c.steps ++ ([.create .normal] ++
        (ofTrace t settings).callsFor c.placement ((ofTrace t settings).trace.guards.length + 1 + 1)
          passed))
      (Layout.filled ⟨((ofTrace t settings).passAll c.beforePrologue passed).code,
        ((ofTrace t settings).passAll c.beforePrologue passed).later, (ofTrace t settings).bailout⟩)
    rw [entryLayout_eq c hacc suffix.choose_spec hguards, hlength]
    exact (builds_loop c hacc).append hfilled
  | entered =>
    have hemitted := Layout.builds_emitted (ofTrace t settings) c.placement
      (l := c.entryLayout t.prologue) c.chained_afterBody.ne_nil hguards rfl
    show Assembly.Builds {} ((ofTrace t settings).loopCalls c.placement c.steps ++ ([.create .normal] ++
        (ofTrace t settings).callsFor c.placement ((ofTrace t settings).trace.guards.length + 1 + 1)
          t.prologue ++ [.emitUnlessEmpty ⟨(ofTrace t settings).trace.guards.length + 1 + 1⟩ true]))
      (Layout.emitted ⟨((ofTrace t settings).passAll c.beforePrologue t.prologue).code,
        ((ofTrace t settings).passAll c.beforePrologue t.prologue).later, (ofTrace t settings).bailout⟩)
    rw [entryLayout_eq c hacc (List.nil_append t.prologue) hguards, hlength]
    exact (builds_loop c hacc).append hemitted

end Course

/-- The walk over a trace keeps to a course: at a point it stands where the course says, and if a routine
comes out, it is that of the course. -/
structure Course.Walked {t : Trace} {settings : Settings} (c : Course t settings) : Prop where
  point : ∀ point w, t.Stands settings point w → point.Clear ∧ w.front = c.frontAt point
  routine : ∀ r, t.lower settings = .ok r → t.Lowerable ∧ r = c.routine

namespace Trace

open Job

variable {t : Trace} {settings : Settings}

/-- A walk comes to no point if something that is to have a slot produces nothing. -/
theorem not_stands (hacc : t.Accepted) (h : t.Valueless) (point : t.Point) (w : Walk) :
    ¬ t.Stands settings point w := by
  rintro ⟨parameters, hstands⟩
  obtain ⟨rest, he⟩ := (ofTrace t settings).walkTo_eq_untilMoves point
  have hfails : ((ofTrace t settings).walkTo point).Fails (Session.openingFront settings) Broken :=
    he ▸ (Course.untilMoves_fails hacc h).bind
  obtain ⟨e, w', hrun, -⟩ := hfails { pool := (Session.opening settings).2 } rfl
  rw [hstands] at hrun
  cases hrun

/-- Otherwise it keeps to one course, whatever becomes of it. -/
theorem exists_walked (hcheck : t.check = .ok ()) (hvalues : ¬ t.Valueless) :
    ∃ c : Course t settings, c.Walked := by
  have hacc := check_eq_ok_iff.1 hcheck
  obtain ⟨c, hparams, hback⟩ := @Course.exists_course t settings hacc hvalues
  refine ⟨c, fun point w => ?_, fun r hr => ?_⟩
  · rintro ⟨parameters, hstands⟩
    obtain ⟨hgives, hfails⟩ := Course.walkTo_spec hacc hparams hback point
    have hclear : point.Clear := by
      by_contra hno
      obtain ⟨e, w', hrun, -⟩ := hfails hno { pool := (Session.opening settings).2 } rfl
      rw [hstands] at hrun
      cases hrun
    obtain ⟨w', hrun, hfront⟩ := hgives hclear { pool := (Session.opening settings).2 } rfl
    rw [hstands] at hrun
    cases hrun
    exact ⟨hclear, hfront⟩
  · have hne : ∀ {E : Fault → Prop},
        ¬ (ofTrace t settings).lower.Fails (Session.openingFront settings) E := fun hfails => by
      obtain ⟨e, he, -⟩ := lower_eq_of_fails hcheck hfails
      rw [hr] at he
      cases he
    have hl : t.Lowerable := by
      by_contra hno
      exact hne (Course.lower_fails hacc hno hparams hback)
    obtain ⟨hgives, hfails⟩ := Course.lower_spec hacc hl hparams hback
    have hok := lower_eq_of_gives hcheck (hgives fun hverify => by
      by_contra hno
      exact hne (hfails hverify hno))
    exact ⟨hl, Except.ok.inj (hr.symm.trans hok)⟩

/-- A walk that comes to a point is on its course. -/
theorem Stands.exists_course {point : t.Point} {w : Walk} (hcheck : t.check = .ok ())
    (h : t.Stands settings point w) :
    ∃ c : Course t settings, point.Clear ∧ w.front = c.frontAt point := by
  obtain ⟨c, hc⟩ := @exists_walked t settings hcheck
    fun hno => not_stands (check_eq_ok_iff.1 hcheck) hno point w h
  exact ⟨c, hc.point point w h⟩

end Trace

end LoopTrace
