import LoopTrace.Lowering.Call
import LoopTrace.Proofs.Outcomes
import LoopTrace.Proofs.Phases

/-!
# One trace for each session

A session may be handed any traces, and asked for its routine at any time. Malformed traces are turned
away and leave it as it was, its pool and its blocks included. The first trace that is accepted decides what
becomes of it: either the routine is there, or it never will be. From then on every trace is too late.

`Told` ties the replies of a session to its state, one call keeps it (`Told.answer`), and so does a run
of calls. What a session comes to with its one trace is what the trace comes to in a session of its own
(`run_lowers_one`). That a walk never comes upon a value that does not exist, which would look like a
malformed trace, is due to the check (`lower_ne_invalidTrace`).
-/

namespace LoopTrace

namespace Trace

variable {t : Trace} {settings : Settings}

/-- Once a trace has been accepted, nothing about it is found malformed. -/
theorem lower_ne_invalidTrace (hcheck : t.check = .ok ()) (why : Malformed) :
    t.lower settings ≠ .error (.invalidTrace why) := by
  intro he
  have hbreach : ¬ ∃ why, t.lower settings = .error (.breach why) := by
    rintro ⟨why', he'⟩
    rw [he] at he'
    cases he'
  obtain ⟨hnot, hyes, hself⟩ := @lower_cases t settings hcheck fun h => hbreach (lower_breaks hcheck h)
  by_cases hl : t.Lowerable
  · obtain ⟨c, hc⟩ := hyes hl fun hv => by
      by_contra hno
      exact hbreach (hself hl hv hno)
    rw [he] at hc
    cases hc
  · obtain ⟨what, hw⟩ := hnot hl
    rw [he] at hw
    cases hw

end Trace

namespace Session

/-! ### One call -/

/-- A trace is turned away: it is malformed, and the session stands at its start. -/
structure Attempt.TurnedAway (settings : Settings) (a : Attempt) : Prop where
  outcome : ∃ why, a.trace.check = .error why ∧ a.outcome = .error (.invalidTrace why) ∧
    a.trace.lower settings = .error (.invalidTrace why)
  phase : a.phase = .start

/-- A trace is taken up: it is accepted and not found malformed later on, and comes to what it comes to in a
session of its own. -/
structure Attempt.Decides (settings : Settings) (a : Attempt) : Prop where
  checked : a.trace.check = .ok ()
  accepted : ∀ why, a.outcome ≠ .error (.invalidTrace why)
  outcome : a.outcome = (a.trace.lower settings).map fun _ => ()
  phase : a.phase ≠ .start
  finished : a.phase = .finished ↔ a.outcome = .ok ()

/-- A trace comes when another one has been taken up. -/
structure Attempt.TooLate (a : Attempt) : Prop where
  outcome : a.outcome = .error (.breach (.secondTrace a.phase))
  phase : a.phase ≠ .start

/-- The lowering that the replies tell of has come to a routine. -/
def Published (settings : Settings) (replies : List Reply) (r : Routine) : Prop :=
  ∃ a, .attempted a ∈ replies ∧ a.outcome = .ok () ∧ a.trace.lower settings = .ok r

section Accepted

variable {settings : Settings} {t : Trace} (hcheck : t.check = .ok ())

include hcheck

/-- The phase that an accepted trace leaves. -/
theorem phase_leftBy : (leftBy settings t).phase ≠ .start ∧
    ((leftBy settings t).phase = .finished ↔ ∃ r, t.lower settings = .ok r) := by
  have hphase := (Job.ofTrace t settings).lower_phased { pool := (opening settings).2 } rfl
  obtain ⟨w, hw, -, hleft⟩ := exists_walk hcheck settings
  rw [← walk_waiting, hw] at hphase
  have hphase' : (leftBy settings t).phase = w.phase := by rw [hleft, phase]
  rw [hphase']
  cases ht : t.lower settings with
  | ok r =>
    rw [ht] at hphase
    exact ⟨by rw [hphase]; decide, fun _ => ⟨r, rfl⟩, fun _ => hphase⟩
  | error e =>
    rw [ht] at hphase
    have hends : w.phase ≠ .start ∧ w.phase ≠ .finished := by
      rcases hphase with h | h <;> rw [h] <;> decide
    exact ⟨hends.1, fun h => absurd h hends.2, by simp⟩

/-- The session has the routine that the trace comes to. -/
theorem routine_leftBy (r : Routine) :
    (leftBy settings t).routine = .ok r ↔ t.lower settings = .ok r := by
  obtain ⟨w, hw, -, hleft⟩ := exists_walk hcheck settings
  rw [hleft]
  cases ht : t.lower settings with
  | ok r' =>
    rw [ht] at hw
    rw [Except.toOption, routine_of_walk hw]
  | error e =>
    rw [Except.toOption, routine_of_none]
    exact ⟨nofun, nofun⟩

/-- A trace that is accepted is taken up. -/
theorem leftBy_decides {outcome : Except Fault Unit}
    (ho : outcome = (t.lower settings).map fun _ => ()) :
    Attempt.Decides settings ⟨t, outcome, (leftBy settings t).phase⟩ where
  checked := hcheck
  accepted why he := by
    have hne := @Trace.lower_ne_invalidTrace t settings hcheck why
    rw [ho] at he
    cases ht : t.lower settings with
    | ok r =>
      rw [ht] at he
      cases he
    | error e =>
      rw [ht] at he hne
      exact hne (congrArg _ (Except.error.inj he))
  outcome := ho
  phase := (phase_leftBy hcheck).1
  finished := by
    rw [(phase_leftBy hcheck).2, ho]
    cases t.lower settings <;> simp [Except.map]

/-- A session that has taken up a trace takes no other, and stays as it is. -/
theorem lower_leftBy (t' : Trace) : (leftBy settings t).lower t' =
    (.error (.breach (.secondTrace (leftBy settings t).phase)), leftBy settings t, []) := by
  rw [lower, if_neg (phase_leftBy hcheck).1]

end Accepted

/-! ### The replies and the session -/

/-- The attempts of which replies tell. -/
def attempts (replies : List Reply) : List Attempt := replies.filterMap Reply.attempt?

/-- What the replies so far tell of the session that gave them. -/
inductive Progress (settings : Settings) (replies : List Reply) : Session → Prop where
  | waiting (turnedAway : ∀ a ∈ attempts replies, a.TurnedAway settings) :
    Progress settings replies ⟨settings, .waiting⟩
  | settled (refused : List Attempt) (a : Attempt) (late : List Attempt)
    (attempts : attempts replies = refused ++ a :: late)
    (turnedAway : ∀ b ∈ refused, b.TurnedAway settings) (decides : a.Decides settings)
    (tooLate : ∀ b ∈ late, b.TooLate) :
    Progress settings replies (leftBy settings a.trace)

theorem mem_attempts {replies : List Reply} {a : Attempt} :
    a ∈ attempts replies ↔ .attempted a ∈ replies := by
  rw [attempts, List.mem_filterMap]
  constructor
  · rintro ⟨reply, hm, ha⟩
    cases reply with
    | attempted b => exact Option.some.inj ha ▸ hm
    | gave result => cases ha
  · exact fun h => ⟨_, h, rfl⟩

theorem attempts_append (replies : List Reply) (reply : Reply) :
    attempts (replies ++ [reply]) = attempts replies ++ reply.attempt?.toList := by
  rw [attempts, List.filterMap_append]
  cases reply <;> rfl

theorem Attempt.TurnedAway.not_isOk {settings : Settings} {a : Attempt} (h : a.TurnedAway settings) :
    a.trace.check.isOk = false := by
  obtain ⟨why, hwhy, -⟩ := h.outcome
  rw [hwhy]
  rfl

theorem Attempt.TurnedAway.ne_ok {settings : Settings} {a : Attempt} (h : a.TurnedAway settings) :
    a.outcome ≠ .ok () := by
  obtain ⟨why, -, hwhy, -⟩ := h.outcome
  rw [hwhy]
  exact nofun

theorem Attempt.TooLate.ne_ok {a : Attempt} (h : a.TooLate) : a.outcome ≠ .ok () := by
  rw [h.outcome]
  exact nofun

namespace Progress

variable {settings : Settings} {replies : List Reply} {s : Session}

/-- The traces that a session was handed come in three rows. -/
theorem rows (h : Progress settings replies s) : ∃ refused rest, attempts replies = refused ++ rest ∧
      (∀ a ∈ refused, a.TurnedAway settings) ∧
      ∀ a late, rest = a :: late → a.Decides settings ∧ ∀ b ∈ late, b.TooLate := by
  cases h with
  | waiting hall => exact ⟨_, [], (List.append_nil _).symm, hall, by simp⟩
  | settled refused a late hattempts hrefused hdecides hlate =>
    refine ⟨refused, _, hattempts, hrefused, fun b later he => ?_⟩
    obtain ⟨rfl, rfl⟩ := List.cons.inj he
    exact ⟨hdecides, hlate⟩

/-- The session is what the first trace that was accepted has left of a new one. -/
theorem state (h : Progress settings replies s) :
    s = match (attempts replies).find? fun a => a.trace.check.isOk with
      | some a => leftBy settings a.trace
      | none => ⟨settings, .waiting⟩ := by
  cases h with
  | waiting hall =>
    have hnone : (attempts replies).find? (fun a => a.trace.check.isOk) = none :=
      List.find?_eq_none.2 fun a ha => by simp [(hall a ha).not_isOk]
    rw [hnone]
  | settled refused a late hattempts hrefused hdecides hlate =>
    have hnone : refused.find? (fun a => a.trace.check.isOk) = none :=
      List.find?_eq_none.2 fun b hb => by simp [(hrefused b hb).not_isOk]
    have hfirst : (a :: late).find? (fun a => a.trace.check.isOk) = some a :=
      List.find?_cons_of_pos (by simp [hdecides.checked, Except.isOk, Except.toBool])
    rw [hattempts, List.find?_append, hnone, Option.none_or, hfirst]

/-- A trace that came to a routine is the one that was taken up. -/
theorem of_ok (h : Progress settings replies s) {a : Attempt} (ha : .attempted a ∈ replies)
    (hok : a.outcome = .ok ()) : s = leftBy settings a.trace ∧ a.Decides settings := by
  have hmem := mem_attempts.2 ha
  cases h with
  | waiting hall => exact absurd hok (hall a hmem).ne_ok
  | settled refused first late hattempts hrefused hdecides hlate =>
    rw [hattempts, List.mem_append, List.mem_cons] at hmem
    rcases hmem with hmem | rfl | hmem
    · exact absurd hok (hrefused a hmem).ne_ok
    · exact ⟨rfl, hdecides⟩
    · exact absurd hok (hlate a hmem).ne_ok

/-- A session has a routine exactly if the replies tell of a lowering that has come to it. -/
theorem routine_eq_ok_iff (h : Progress settings replies s) (r : Routine) :
    s.routine = .ok r ↔ Published settings replies r := by
  constructor
  · intro he
    cases h with
    | waiting hall => cases he
    | settled refused a late hattempts hrefused hdecides hlate =>
      have hr := (routine_leftBy hdecides.checked r).1 he
      have hmem : a ∈ attempts replies := hattempts ▸ by simp
      exact ⟨a, mem_attempts.1 hmem, by rw [hdecides.outcome, hr]; rfl, hr⟩
  · rintro ⟨a, ha, hok, hr⟩
    obtain ⟨rfl, hdecides⟩ := h.of_ok ha hok
    exact (routine_leftBy hdecides.checked r).2 hr

/-- There is a routine exactly if some lowering came to one. -/
theorem exists_routine_iff (h : Progress settings replies s) :
    (∃ r, s.routine = .ok r) ↔ ∃ a, .attempted a ∈ replies ∧ a.outcome = .ok () := by
  constructor
  · rintro ⟨r, hr⟩
    obtain ⟨a, ha, hok, -⟩ := (h.routine_eq_ok_iff r).1 hr
    exact ⟨a, ha, hok⟩
  · rintro ⟨a, ha, hok⟩
    obtain ⟨-, hdecides⟩ := h.of_ok ha hok
    have houtcome := hdecides.outcome
    cases ht : a.trace.lower settings with
    | ok r => exact ⟨r, (h.routine_eq_ok_iff r).2 ⟨a, ha, hok, ht⟩⟩
    | error e =>
      rw [hok, ht] at houtcome
      cases houtcome

/-- One call keeps the session and its replies together. -/
theorem answer (h : Progress settings replies s) (call : Call) :
    Progress settings (replies ++ [(s.answer call).1]) (s.answer call).2 := by
  cases call with
  | routine =>
    have hsame : attempts (replies ++ [.gave s.routine]) = attempts replies := by
      rw [attempts_append]
      exact List.append_nil _
    cases h with
    | waiting hall => exact .waiting (hsame ▸ hall)
    | settled refused a late hattempts hrefused hdecides hlate =>
      exact .settled refused a late (hsame.trans hattempts) hrefused hdecides hlate
  | lower t =>
    cases h with
    | waiting hall =>
      cases hcheck : t.check with
      | error why =>
        simp only [Session.answer, lower_turnedAway hcheck]
        refine .waiting fun b hb => ?_
        rw [attempts_append] at hb
        rcases List.mem_append.1 hb with hb | hb
        · exact hall b hb
        · obtain rfl := List.mem_singleton.1 hb
          exact ⟨⟨why, hcheck, rfl, Trace.lower_of_check_error hcheck⟩, rfl⟩
      | ok u =>
        obtain ⟨w, -, he, -⟩ := exists_walk hcheck settings
        simp only [Session.answer, he]
        exact .settled _ _ [] (attempts_append _ _) hall (leftBy_decides hcheck rfl) (by simp)
    | settled refused a late hattempts hrefused hdecides hlate =>
      let now := leftBy settings a.trace
      let attempt : Attempt := ⟨t, .error (.breach (.secondTrace now.phase)), now.phase⟩
      have htooLate : attempt.TooLate := ⟨rfl, (phase_leftBy hdecides.checked).1⟩
      simp only [Session.answer, lower_leftBy hdecides.checked]
      refine .settled refused a (late ++ [attempt]) ?_ hrefused hdecides fun b hb => ?_
      · rw [attempts_append, hattempts, List.append_assoc]
        rfl
      · rcases List.mem_append.1 hb with hb | hb
        · exact hlate b hb
        · exact List.mem_singleton.1 hb ▸ htooLate

end Progress

/-! ### Runs of calls -/

/-- The replies so far and the session that gave them. Each time that the session was asked for its
routine, the replies before that tell what it gave. -/
structure Told (settings : Settings) (replies : List Reply) (s : Session) : Prop where
  progress : Progress settings replies s
  gave : ∀ before result after, replies = before ++ .gave result :: after →
    (∀ r, result = .ok r ↔ Published settings before r) ∧
    ((∃ r, result = .ok r) ↔ ∃ a, .attempted a ∈ before ∧ a.outcome = .ok ())

theorem told_opening (settings : Settings) : Told settings [] ⟨settings, .waiting⟩ :=
  ⟨.waiting (by simp [attempts]), by simp⟩

theorem Told.answer {settings : Settings} {replies : List Reply} {s : Session}
    (h : Told settings replies s) (call : Call) :
    Told settings (replies ++ [(s.answer call).1]) (s.answer call).2 := by
  refine ⟨h.progress.answer call, fun before result after he => ?_⟩
  rcases List.eq_nil_or_concat after with rfl | ⟨after, last, rfl⟩
  · -- the last reply is the one that gave the routine
    obtain ⟨rfl, hlast⟩ := List.append_inj' he rfl
    have hgave : (s.answer call).1 = .gave result := List.head_eq_of_cons_eq hlast
    cases call with
    | lower t => cases hgave
    | routine =>
      obtain rfl : s.routine = result := Reply.gave.inj hgave
      exact ⟨h.progress.routine_eq_ok_iff, h.progress.exists_routine_iff⟩
  · rw [List.concat_eq_append, ← List.cons_append, ← List.append_assoc] at he
    exact h.gave before result after (List.append_inj' he rfl).1

theorem Told.run {settings : Settings} {replies : List Reply} {s : Session}
    (h : Told settings replies s) (calls : List Call) :
    Told settings (replies ++ (s.run calls).1) (s.run calls).2 := by
  induction calls generalizing replies s with
  | nil => rwa [Session.run, List.append_nil]
  | cons call rest ih =>
    have hrest := ih (h.answer call)
    rwa [List.append_assoc] at hrest

/-- What the replies of a session tell, from its first call on. -/
structure LowersOne (settings : Settings) (replies : List Reply) (s : Session) : Prop where
  /-- Traces are turned away until one is taken up, and all others come too late. -/
  attempts : ∃ refused rest, attempts replies = refused ++ rest ∧
    (∀ a ∈ refused, a.TurnedAway settings) ∧
    ∀ a late, rest = a :: late → a.Decides settings ∧ ∀ b ∈ late, b.TooLate
  /-- All that the session works on is as it was when it was opened, until a trace is accepted; from then
  on it is what that trace alone leaves of a new session. -/
  state : s = match (Session.attempts replies).find? fun a => a.trace.check.isOk with
    | some a => leftBy settings a.trace
    | none => ⟨settings, .waiting⟩
  /-- Whenever the session was asked for its routine, it gave the one that an earlier lowering had come
  to, and there was one exactly if an earlier lowering had succeeded. -/
  gave : ∀ before result after, replies = before ++ .gave result :: after →
    (∀ r, result = .ok r ↔ Published settings before r) ∧
    ((∃ r, result = .ok r) ↔ ∃ a, .attempted a ∈ before ∧ a.outcome = .ok ())
  /-- So it does at the end, when the routine is taken out of the session. -/
  routine : (∀ r, s.routine = .ok r ↔ Published settings replies r) ∧
    ((∃ r, s.routine = .ok r) ↔ ∃ a, .attempted a ∈ replies ∧ a.outcome = .ok ())
  /-- A routine that was given once is the one that is given at the end. -/
  same : ∀ r, .gave (.ok r) ∈ replies → s.routine = .ok r

/-- **One trace for each session**: whatever traces a session is handed, and however often it is asked
for its routine in between, malformed traces leave no mark, the first trace that is accepted comes to
what it comes to in a session of its own, and the routine is there exactly if it came to one. -/
theorem run_lowers_one (settings : Settings) (calls : List Call) :
    LowersOne settings ((⟨settings, .waiting⟩ : Session).run calls).1
      ((⟨settings, .waiting⟩ : Session).run calls).2 := by
  have htold := (told_opening settings).run calls
  rw [List.nil_append] at htold
  have hroutine := htold.progress.routine_eq_ok_iff
  refine ⟨htold.progress.rows, htold.progress.state, htold.gave,
    ⟨hroutine, htold.progress.exists_routine_iff⟩, fun r hr => ?_⟩
  obtain ⟨before, after, he⟩ := List.append_of_mem hr
  obtain ⟨a, ha, hok, hlower⟩ := ((htold.gave _ _ _ he).1 r).1 rfl
  refine (hroutine r).2 ⟨a, ?_, hok, hlower⟩
  rw [he]
  exact List.mem_append_left _ ha

/-- The loop of `countdown` with an instruction that is not there. -/
def hollow : Trace := { Trace.countdown with body := [⟨2⟩, ⟨4⟩, ⟨3⟩] }

/-- A session is handed that loop twice, and the loop as it should be twice in between. -/
def trials : List Call :=
  [.lower hollow, .routine, .lower Trace.countdown, .lower Trace.countdown, .lower hollow, .routine]

/-- The first trace is turned away, the second one is lowered, and the others come too late. -/
theorem run_lowers_one_trials :
    (attempts ((⟨{}, .waiting⟩ : Session).run trials).1).map
        (fun a => (a.trace.check.isOk, a.outcome.isOk, a.phase)) =
      [(false, false, .start), (true, true, .finished), (true, false, .finished),
        (false, false, .finished)] ∧
    ((⟨{}, .waiting⟩ : Session).run trials).2.routine.isOk = true ∧
    LowersOne {} ((⟨{}, .waiting⟩ : Session).run trials).1
      ((⟨{}, .waiting⟩ : Session).run trials).2 :=
  ⟨by decide +kernel, by decide +kernel, run_lowers_one {} trials⟩

end Session

end LoopTrace
