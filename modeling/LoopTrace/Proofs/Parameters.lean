import LoopTrace.Proofs.Numbering
import LoopTrace.Proofs.Origins

/-!
# Parameters in the places of locals

The recorder counts the places of the interpreter's locals, the lowering makes parameters, and neither
looks at the other. They agree: the parameters for a local stand from the number of the local on
(`Enters.stands`), so the interpreter can hand over its locals as they lie. Places that nothing is read
from have parameters of kind void, and no code mentions a slot of that kind.
-/

namespace LoopTrace

/-- The parameters for a local from a place on: where the local is kept, if it is read, or else a slot of
kind void, and one more such slot for a wide local. -/
structure Stands (place : Placement) (slots : List Slot) (id : ValueId) (n : Nat) (kind : Kind)
    (flags : LocalFlags) : Prop where
  first : ∃ s, slots[n]? = some s ∧
    (flags.read = true → place id = some s ∧ s.kind = kind) ∧ (flags.read = false → s.kind = .void)
  second : kind.isWide = true → ∃ s, slots[n + 1]? = some s ∧ s.kind = .void

namespace Stands

variable {place place' : Placement} {slots : List Slot} {id : ValueId} {n : Nat} {kind : Kind}
  {flags : LocalFlags}

theorem mono (h : Stands place slots id n kind flags)
    (hplace : ∀ {s}, place id = some s → place' id = some s) : Stands place' slots id n kind flags := by
  obtain ⟨⟨s, hs, hread, hunread⟩, hsecond⟩ := h
  exact ⟨⟨s, hs, fun hr => ⟨hplace (hread hr).1, (hread hr).2⟩, hunread⟩, hsecond⟩

theorem append (h : Stands place slots id n kind flags) (more : List Slot) :
    Stands place (slots ++ more) id n kind flags := by
  have happend : ∀ {i : Nat} {s : Slot}, slots[i]? = some s → (slots ++ more)[i]? = some s :=
    fun hi => (List.getElem?_append_left (List.getElem?_eq_some_iff.1 hi).1).trans hi
  obtain ⟨⟨s, hs, hkinds⟩, hsecond⟩ := h
  exact ⟨⟨s, happend hs, hkinds⟩, fun hw => (hsecond hw).imp fun _ h => ⟨happend h.1, h.2⟩⟩

theorem shift (h : Stands place slots id n kind flags) (before : List Slot) :
    Stands place (before ++ slots) id (before.length + n) kind flags := by
  have hshift : ∀ i : Nat, (before ++ slots)[before.length + i]? = slots[i]? := fun i => by
    rw [List.getElem?_append_right (Nat.le_add_right ..), Nat.add_sub_cancel_left]
  obtain ⟨⟨s, hs, hkinds⟩, hsecond⟩ := h
  exact ⟨⟨s, (hshift n).trans hs, hkinds⟩, fun hw => (hsecond hw).imp fun _ h =>
    ⟨(hshift (n + 1)).trans h.1, h.2⟩⟩

end Stands

namespace Job

variable {j : Job} {p q : Pool}

/-- The parameters that are made for one local. -/
theorem Receives.stands {id : ValueId} {ps : List Slot} (h : j.Receives p id ps q) {n : Nat}
    {kind : Kind} {flags : LocalFlags} (hv : j.trace.get? id = some (.atEntry n kind flags)) :
    ps.length = kind.width ∧ Stands q.lookup ps id 0 kind flags := by
  have hlen : ps.length = kind.width := h.length.trans (Trace.width_of_atEntry hv)
  have hpos : 0 < ps.length := by
    rw [hlen, Kind.width]
    split <;> decide
  obtain ⟨s, others, rfl⟩ := List.exists_cons_of_length_pos hpos
  refine ⟨hlen, ⟨s, rfl, fun hr => ?_, fun hr => ?_⟩, fun hw => ?_⟩
  · obtain ⟨s', hs', hl⟩ := h.read ⟨n, kind, flags, hv, hr⟩
    obtain rfl := Option.some.inj hs'
    obtain ⟨v, hv', -, hk⟩ := h.fits.bound hl
    obtain rfl := Option.some.inj (hv.symm.trans hv')
    exact ⟨hl, hk⟩
  · refine (h.unread ?_ s List.mem_cons_self).2.2
    rintro ⟨n', kind', flags', hv', hr'⟩
    rw [hv] at hv'
    cases hv'
    rw [hr] at hr'
    cases hr'
  · have hone : others.length = 1 := by
      rw [Kind.width, if_pos hw, List.length_cons] at hlen
      omega
    obtain ⟨s', rfl⟩ := List.length_eq_one_iff.1 hone
    exact ⟨s', rfl, (h.tail s' List.mem_cons_self).2.2⟩

/-- The parameters for numbered locals stand in the places with their numbers, and there are no
others. -/
theorem Enters.stands {ids : List ValueId} {pss : List (List Slot)} (h : j.Enters p ids pss q)
    {n m : Nat} (hn : Numbered j.trace.get? n ids m) : n + pss.flatten.length = m ∧
      ∀ id ∈ ids, ∃ k kind flags, j.trace.get? id = some (.atEntry (n + k) kind flags) ∧
        Stands q.lookup pss.flatten id k kind flags := by
  induction h generalizing n with
  | nil p =>
    cases hn
    exact ⟨rfl, fun id hid => absurd hid List.not_mem_nil⟩
  | @cons p q o id ids ps pss first rest ih =>
    cases hn with
    | @cons _ _ _ _ kind flags hv hnumbered =>
      obtain ⟨hlen, hstands⟩ := first.stands hv
      obtain ⟨htotal, hids⟩ := ih hnumbered
      rw [List.flatten_cons, List.length_append, hlen]
      refine ⟨by rw [← htotal, Nat.add_assoc], fun u hu => ?_⟩
      rcases List.mem_cons.1 hu with rfl | hu
      · exact ⟨0, kind, flags, hv, (hstands.append _).mono rest.extension.kept⟩
      · obtain ⟨k, kind', flags', hv', hstands'⟩ := hids u hu
        refine ⟨kind.width + k, kind', flags', by rw [← Nat.add_assoc]; exact hv', ?_⟩
        rw [← hlen]
        exact hstands'.shift ps

/-- What is kept somewhere is not kept in a slot of kind void. -/
theorem Keeps.kind_ne_void {place : Placement} (hk : j.Keeps p place) {u : ValueId} {s : Slot}
    (hu : place u = some s) : s.kind ≠ .void := by
  obtain ⟨v, -, hn, hkind⟩ := hk.fits hu
  rw [hkind]
  exact Trace.Value.kind_ne_void_of_needsSlot hn

end Job

namespace Course

open Job

variable {t : Trace} {settings : Settings} {c : Course t settings}

/-- The parameters are distinct, and none of them is the slot for the tag. -/
theorem nodup_parameters (hentry : t.entry.Nodup) :
    ((ofTrace t settings).tagSlot :: c.parameters.flatten).Nodup := by
  have hnone : ∀ id ∈ t.entry, Pool.lookup (Session.opening settings).2 id = none := fun id _ => rfl
  obtain ⟨hnd, hle⟩ := c.enters.nodup hentry hnone
  refine List.nodup_cons.2 ⟨fun htag => ?_, hnd⟩
  exact absurd (hle _ htag) (Nat.not_succ_le_self 0)

/-- The moves mention no slot of kind void. -/
theorem kind_ne_void_of_mem_moves (hacc : t.Accepted) :
    ∀ i ∈ Move.stepCode c.steps, ∀ s ∈ i.slots, s.kind ≠ .void := by
  refine c.writes.ordered.forall_kind (P := (· ≠ .void)) fun m hm s hs => ?_
  have hk := keeps_placement (c := c) hacc
  obtain ⟨write, -, hd, hsource, -⟩ := mem_filterMap_moveIn (List.mem_of_mem_filter hm)
  rcases Move.mem_slots_instruction.1 hs with he | rfl
  · have hl := mem_bound_of_operand (by rw [← hsource, he]; rfl :
      (Job.operand _ _ write.source).slot? = some s)
    rw [← c.lookup_written] at hl
    exact hk.kind_ne_void (placement_of_lookup_written hacc hl)
  · rw [← c.lookup_written] at hd
    exact hk.kind_ne_void (placement_of_lookup_written hacc hd)

/-- No code mentions a slot of kind void. -/
theorem kind_ne_void (hacc : t.Accepted) (h : t.Lowerable) {b : Block} (hb : b ∈ c.layout.blocks)
    {i : Instruction} (hi : i ∈ b.code) {s : Slot} (hs : s ∈ i.slots) : s.kind ≠ .void := by
  have htag : (ofTrace t settings).tagSlot.kind ≠ .void := by
    rw [show (ofTrace t settings).tagSlot = ⟨.reference, 0⟩ from rfl]
    decide
  rcases origin_of_mem hacc h hb hi with horigin | rfl | hi
  · rcases horigin.slots hs with ⟨u, hu⟩ | rfl | ⟨k, hk, hs⟩
    · exact (keeps_placement hacc).kind_ne_void hu
    · exact htag
    · exact kind_ne_void_of_mem_moves hacc k hk s hs
  · cases hs
  · simp only [Abi.bailoutCode, List.mem_cons, List.not_mem_nil, or_false] at hi
    rcases hi with rfl | rfl | rfl
    · cases hs
    · obtain rfl := List.mem_singleton.1 hs
      exact htag
    · obtain rfl := List.mem_singleton.1 hs
      exact htag

end Course

namespace Recorder

open Job

/-- **Parameters follow the interpreter's layout**: for a recorded loop that is lowered, the parameter
with the number of a local is the slot that stands for the local in all code, or a slot of kind void if
the local is not read; a wide local has a second parameter of kind void; there are as many parameters as
the script declares places; they are distinct, none of them is the slot for the tag, and no slot of kind
void occurs in the code. -/
theorem run_parameters (anchor : Signature) (position : Nat) (script : Script) (settings : Settings)
    (entries : List Entry) (recorder : Recorder) (t : Trace) (r : Routine)
    (hrun : ({ anchor, position } : Recorder).run false script = some (entries, recorder))
    (hbuild : recorder.build = .ok t) (hr : t.lower settings = .ok r) :
    ∃ o : (ofTrace t settings).Outline r,
      (∀ id ∈ t.entry, ∃ n kind flags, t.get? id = some (.atEntry n kind flags) ∧
        (∃ s, r.parameters[n]? = some s ∧
          (flags.read = true → (ofTrace t settings).operandAt o.place id = .slot s ∧ s.kind = kind) ∧
          (flags.read = false → s.kind = .void)) ∧
        (kind.isWide = true → ∃ s, r.parameters[n + 1]? = some s ∧ s.kind = .void)) ∧
      r.parameters.length = script.slots ∧
      ((ofTrace t settings).tagSlot :: r.parameters).Nodup ∧
      ∀ b ∈ r.blocks, ∀ i ∈ b.code, ∀ s ∈ i.slots, s.kind ≠ .void := by
  have hcheck := Trace.check_of_lower hr
  have hacc := Trace.check_eq_ok_iff.1 hcheck
  obtain ⟨h, c, rfl⟩ := Trace.exists_course_of_lower hcheck hr
  obtain ⟨hentry, hnumbered⟩ := numbered_of_build hrun hbuild
  obtain ⟨htotal, hstands⟩ := c.enters.stands hnumbered
  have hblocks : c.routine.blocks = c.layout.blocks := c.layout.blocks_routine _ _ _
  refine ⟨c.outline hacc h, fun id hid => ?_, (Nat.zero_add _).symm.trans htotal,
    Course.nodup_parameters hentry, fun b hb i hi s hs =>
      Course.kind_ne_void hacc h (hblocks ▸ hb) hi hs⟩
  obtain ⟨n, kind, flags, hv, ⟨s, hs, hread, hunread⟩, hsecond⟩ := hstands id hid
  rw [Nat.zero_add] at hv
  refine ⟨n, kind, flags, hv, ⟨s, hs, fun hr => ?_, hunread⟩, hsecond⟩
  obtain ⟨hl, hkind⟩ := hread hr
  have hplace := Course.placement_of_lookup_written hacc (c.lookup_written_of_entered hl)
  obtain ⟨v, hv', hn, -⟩ := c.fits_entered.bound hl
  exact ⟨operandAt_of_needsSlot (j := ofTrace t settings) hv' hn hplace, hkind⟩

/-- A loop that negates an int and doubles a double, with a long between them that it does not touch. -/
def striding : Script :=
  .step (.declare .int) <| .step (.declare .long) <| .step (.declare .double) <|
  .step (.operation .intNeg [⟨0⟩]) <| .step (.store ⟨0⟩ ⟨3⟩) <|
  .step (.operation .doubleAdd [⟨2⟩, ⟨2⟩]) <| .step (.store ⟨2⟩ ⟨4⟩) .done

theorem run_parameters_striding : ∃ entries recorder t r,
    counting.run false striding = some (entries, recorder) ∧ recorder.build = .ok t ∧
      t.lower {} = .ok r ∧ r.parameters.length = 5 ∧
      ((ofTrace t {}).tagSlot :: r.parameters).Nodup := by
  have hok : (counting.run false striding).any (fun result =>
      (result.2.trace.lower {}).isOk) = true := by
    simp only [trace_eq]
    decide +kernel
  cases hrun : counting.run false striding with
  | none => simp [hrun] at hok
  | some result =>
    obtain ⟨entries, recorder⟩ := result
    simp only [hrun, Option.any_some] at hok
    obtain ⟨r, hr⟩ := Trace.exists_of_isOk hok
    have hbuild : recorder.build = .ok recorder.trace := by
      simp only [build, Trace.check_of_lower hr]
    obtain ⟨-, -, hlen, hnd, -⟩ := run_parameters counting.anchor counting.position striding {}
      entries recorder recorder.trace r hrun hbuild hr
    exact ⟨entries, recorder, recorder.trace, r, rfl, hbuild, hr, hlen, hnd⟩

end Recorder

end LoopTrace
