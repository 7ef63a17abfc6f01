import LoopTrace.Proofs.Points

/-!
# When a lowering breaks its own rules

A breach is due to the trace alone (`lower_breach_iff`): a local without a kind of its own that is to have a
slot, or a routine that reads a local it is not handed. Without these the lowering does not fail, and what
it makes passes verification (`lower_verifies`).

A walk keeps the code of its blocks, and not the blocks, so that it cannot tell whether the calls that put
them together are refused. `Trace.Assembles` says that they never are, however far the walk comes.
-/

namespace LoopTrace

open Assembly (Builds)

namespace Trace

open Job

/-- The blocks of a trace are put together by calls none of which is refused: the first of them, which are
made before any instruction is passed, those until a point that the walk comes to, and all of them if a
routine comes out. -/
structure Assembles (t : Trace) (settings : Settings) (place : Placement) (steps : List Move.Step) :
    Prop where
  first : Builds {} ((ofTrace t settings).firstCalls steps)
    (Layout.pending (ofTrace t settings).bailout [Move.stepCode steps])
  point : ∀ point w, t.Stands settings point w →
    Builds {} ((ofTrace t settings).callsTo place steps point) (t.standing settings point w)
  routine : ∀ r, t.lower settings = .ok r → ∃ a, Builds {} ((ofTrace t settings).calls place steps) a ∧
    r = a.finish t.anchor r.parameters r.slotCount

/-- However far a walk comes, no call for its blocks is refused. -/
theorem exists_assembles {t : Trace} {settings : Settings} (hcheck : t.check = .ok ()) :
    ∃ place steps, t.Assembles settings place steps := by
  have hacc := check_eq_ok_iff.1 hcheck
  by_cases hvalues : t.Valueless
  · -- the walk ends while the parameters or the moves are made
    refine ⟨fun _ => none, [], Layout.builds_first _,
      fun point w hw => absurd hw (not_stands hacc hvalues point w), fun r hr => ?_⟩
    obtain ⟨why, he⟩ := @lower_breaks t settings hcheck hvalues
    rw [hr] at he
    cases he
  · obtain ⟨c, hc⟩ := @exists_walked t settings hcheck hvalues
    refine ⟨c.placement, c.steps, Layout.builds_first _, fun point w hw => ?_, fun r hr => ?_⟩
    · obtain ⟨hclear, hfront⟩ := hc.point point w hw
      rw [standing, hfront]
      exact c.builds_point hacc hclear
    · obtain ⟨hl, rfl⟩ := hc.routine r hr
      exact c.assembled hacc hl

/-- **Every trace that can be lowered is lowered**: if all that is to have a slot carries something
and every local that is used is carried around the loop, a routine comes out, whether or not it is
to be verified, and verification accepts it. Only what cannot be lowered yet is turned down, and none of
the calls that put the blocks together is refused. -/
theorem lower_verifies (t : Trace) (settings : Settings) (hcheck : t.check = .ok ())
    (hused : t.SelfContained) (hentry : ∀ id ∈ t.entry, t.Reads id → ¬ t.Voids id)
    (hwrites : ∀ write ∈ t.writes, ¬ t.Voids write.source) :
    (t.Lowerable → ∃ r, t.lower settings = .ok r ∧ r.verify = .ok ()) ∧
      (¬ t.Lowerable → ∃ what, t.lower settings = .error (.unsupported what)) ∧
      ∃ place steps, t.Assembles settings place steps := by
  obtain ⟨hno, hyes, -⟩ := @lower_cases t settings hcheck (not_valueless_iff.2 ⟨hentry, hwrites⟩)
  refine ⟨fun h => ?_, hno, exists_assembles hcheck⟩
  obtain ⟨c, hc⟩ := hyes h fun _ => hused
  exact ⟨c.routine, hc, (c.verify_routine hcheck h).2 hused⟩

theorem lower_verifies_countdown : ∃ r, countdown.lower .debug = .ok r ∧ r.verify = .ok () := by
  have hwrites : countdown.writes = [⟨0, ⟨2⟩, ⟨0⟩⟩] := by decide
  refine (lower_verifies countdown .debug (by decide) selfContained_countdown ?_ ?_).1 ⟨?_, ?_⟩
  · simp [countdown, Voids, get?, Value.kind]
  · intro write hw
    rw [hwrites, List.mem_singleton] at hw
    rw [hw]
    rintro ⟨v, hv, hk, -⟩
    obtain rfl : .operation .intSub [⟨0⟩, ⟨1⟩] = v := Option.some.inj hv
    cases hk
  · simp [countdown, stream, Inlines, get?]
  · simp [countdown]

/-- **When a lowering breaks its own rules**: a trace that has been accepted makes it do so exactly
if a local on entry is read and is of kind void, or a local takes a value at the tail that produces
nothing, or the routine is to be verified and some local is used that is not carried around the
loop. The calls that put the blocks together have no part in it: none of them is refused. -/
theorem lower_breach_iff (t : Trace) (settings : Settings) (hcheck : t.check = .ok ()) :
    ((∃ why, t.lower settings = .error (.breach why)) ↔
      (∃ id ∈ t.entry, t.Reads id ∧ t.Voids id) ∨ (∃ write ∈ t.writes, t.Voids write.source) ∨
        settings.verify = true ∧ t.Lowerable ∧ ¬ t.SelfContained) ∧
      ∃ place steps, t.Assembles settings place steps := by
  refine ⟨?_, exists_assembles hcheck⟩
  rw [← or_assoc, ← Valueless]
  by_cases hvalues : t.Valueless
  · exact iff_of_true (lower_breaks hcheck hvalues) (Or.inl hvalues)
  obtain ⟨hnot, hyes, hbreach⟩ := @lower_cases t settings hcheck hvalues
  constructor
  · rintro ⟨why, he⟩
    by_contra hno
    by_cases h : t.Lowerable
    · obtain ⟨c, hc⟩ := hyes h fun hs => by
        by_contra hself
        exact hno (Or.inr ⟨hs, h, hself⟩)
      rw [hc] at he
      cases he
    · obtain ⟨what, hw⟩ := hnot h
      rw [hw] at he
      cases he
  · intro h
    obtain ⟨hs, hl, hself⟩ := h.resolve_left hvalues
    exact hbreach hl hs hself

/-- A loop that negates a local which its entry state does not list. -/
def strayed : Trace where
  anchor := ⟨"Sample", "strayed", [], .void, .managed⟩
  position := 0
  values := #[.atEntry 0 .int ⟨true, false⟩, .operation .intNeg [⟨0⟩]]
  prologue := []
  body := [⟨1⟩]
  entry := []
  tail := []

/-- The trace is accepted and holds nothing that cannot be lowered, and its lowering is a breach all
the same. -/
theorem lower_strayed : strayed.check = .ok () ∧ strayed.Lowerable ∧
    strayed.lower {} = .error (.breach (.routine (.readBeforeWrite ⟨.int, 2⟩ ⟨1⟩))) :=
  ⟨rfl, ⟨by simp [strayed, stream, Inlines, get?], by simp [strayed]⟩, rfl⟩

theorem lower_breach_strayed : ∃ why, strayed.lower .debug = .error (.breach why) := by
  refine (lower_breach_iff strayed .debug rfl).1.2 (Or.inr (Or.inr ⟨rfl, ⟨?_, ?_⟩, fun hself => ?_⟩))
  · simp [strayed, stream, Inlines, get?]
  · simp [strayed]
  · have hused : strayed.Used ⟨0⟩ :=
      Or.inl ⟨⟨1⟩, by decide, .operation .intNeg [⟨0⟩], rfl, by decide⟩
    exact absurd (hself ⟨0⟩ hused _ _ _ rfl).1 List.not_mem_nil

end Trace

end LoopTrace
