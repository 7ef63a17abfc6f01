import LoopTrace.Proofs.Arguments
import LoopTrace.Proofs.Iterations
import LoopTrace.Proofs.Outcomes

/-!
# From one iteration to the next

The moves leave a store that agrees with the environment of the next iteration: a local that is
carried around the loop has its new value in its slot, and the values of the prologue have theirs
still. What has been handed to the routine stands at every beginning of an iteration where it stood
on entry: each local in its parameter, and in all other parameters what was in them.
-/

namespace LoopTrace

namespace Trace

/-- A trace that can be lowered, with locals of its own: each lives on entry once, and those that
are used are carried around the loop. -/
structure Closed (t : Trace) : Prop where
  accepted : t.Accepted
  lowerable : t.Lowerable
  contained : t.SelfContained
  distinct : t.entry.Nodup

variable {W V : Type} {M : Meaning W V} {t : Trace}

/-- A local that is written takes its tail value, if that is tracked. -/
theorem carry_of_mem_writes (hacc : t.Accepted) (hnd : t.entry.Nodup) {write : Write}
    (hw : write ∈ t.writes) (htracked : t.get? write.source ≠ some .untracked) (env : ValueId → V) :
    t.carry M env write.destination = t.value M env write.source := by
  obtain ⟨hz, -, hr⟩ := mem_writes.1 ⟨write, hw, rfl, rfl⟩
  rw [carry, lookup_of_mem (hacc.nodup_keys hnd) hz]
  exact if_pos ⟨reads_iff.2 hr, htracked⟩

/-- All other values stay as they are. -/
theorem carry_of_not_written {u : ValueId}
    (hu : ∀ write ∈ t.writes, write.destination = u → t.get? write.source = some .untracked)
    (env : ValueId → V) : t.carry M env u = env u := by
  rw [carry]
  cases hl : (t.entry.zip t.tail).lookup u with
  | none => rfl
  | some s =>
    dsimp only
    split
    · next hc =>
      obtain ⟨hread, htracked⟩ := hc
      have hreads := reads_iff.1 hread
      by_cases he : u = s
      · obtain ⟨n, kind, flags, hv, -⟩ := hreads
        rw [← he, value, hv]
      · obtain ⟨write, hw, hd, hs⟩ := mem_writes.2 ⟨mem_of_lookup hl, he, hreads⟩
        exact absurd (hs ▸ hu write hw hd) htracked
    · rfl

end Trace

namespace Course

open Job

variable {W V : Type} {M : Meaning W V} {t : Trace} {settings : Settings} {c : Course t settings}

/-- The moves take a store that agrees with an environment to one that agrees with the next. -/
theorem agrees_moves (hacc : t.Accepted) (hnd : t.entry.Nodup) {m : Memory W V} {env : ValueId → V}
    (hag : c.written.Agrees m.store env) :
    c.written.Agrees (M.performAll (Move.stepCode c.steps) m).store (t.carry M env) := by
  intro u s hs
  have hordered := c.writes.ordered
  by_cases hw : ∃ write ∈ t.writes, write.destination = u ∧ t.get? write.source ≠ some .untracked
  · obtain ⟨write, hw, rfl, htracked⟩ := hw
    obtain ⟨v, hv, hvoid⟩ := (c.writable write hw).source
    have hbound : v.needsSlot = true → ∃ s, c.written.lookup write.source = some s := fun hn => by
      have hmem : write.source ∈ t.writeUses :=
        List.mem_flatMap.2 ⟨write, hw, by simp [Trace.Write.ends]⟩
      rw [c.lookup_written]
      exact c.written_takes.served hmem hv hn
    have hdef : (ofTrace t settings).operand c.written write.source ≠ .undefined :=
      operandAt_ne_undefined hv hvoid (fun he => htracked (he ▸ hv)) hbound
    have hne : (ofTrace t settings).operand c.written write.source ≠ .slot s := by
      intro he
      have hl := mem_bound_of_operand (j := ofTrace t settings) (by rw [he]; rfl)
      exact (Trace.mem_writes.1 ⟨write, hw, rfl, rfl⟩).2.1 (c.writes.fits.sound.lookup_inj hs hl)
    have hval : M.operand m.store ((ofTrace t settings).operand c.written write.source) =
        t.value M env write.source :=
      operand_eq_value c.writes.fits (c.writable write hw).source
        (fun hv' hn => hbound (Option.some.inj (hv.symm.trans hv') ▸ hn)) fun hl => hag hl
    have hnodup := nodup_destination_backMoves c.written_takes.fits (hacc.nodup_keys hnd)
    rw [Trace.carry_of_mem_writes hacc hnd hw htracked, ← hval]
    exact hordered.store_destination c.below_backMoves hnodup m _ (c.mem_backMoves hw hs hdef hne)
  · have hno : ∀ write ∈ t.writes, write.destination = u →
        t.get? write.source = some .untracked := by
      intro write hw' hd
      by_contra hne
      exact hw ⟨write, hw', hd, hne⟩
    have hwrites : ∀ i ∈ Move.stepCode c.steps, i.writes ≠ some s := by
      intro i hi hwi
      rcases hordered.writes ⟨i, hi, hwi⟩ with ⟨mv, hmv, hd⟩ | htemp
      · obtain ⟨write, hw', hl, hsource, hdef⟩ := mem_filterMap_moveIn (List.mem_of_mem_filter hmv)
        rw [← c.lookup_written, hd] at hl
        have hu := hno write hw' (c.writes.fits.sound.lookup_inj hl hs)
        exact hdef (hsource.trans (operand_untracked c.written_takes.fits hu))
      · exact absurd (serial_lt_of_lookup_written hs)
          (Nat.not_lt.2 (hordered.temporaries.2 s htemp).1)
    rw [Trace.carry_of_not_written hno]
    exact (M.store_performAll hwrites).trans (hag hs)

/-- What is bound at the beginning of an iteration is a local that is carried, or a value of the
prologue. -/
theorem bound_afterBody (ht : t.Closed) {u : ValueId} {s : Slot}
    (hs : c.afterBody.pool.lookup u = some s) :
    (t.Carried u ∧ c.written.lookup u = some s) ∨
      u ∈ t.prologue ∧ u ∉ t.body ∧ ∃ v, t.get? u = some v ∧ v.isLeaf = false := by
  obtain ⟨v, hv, hn, -⟩ := (ready_afterBody ht.accepted).fits.bound hs
  cases hleaf : v.isLeaf with
  | true =>
    obtain ⟨n, kind, flags, rfl⟩ := Trace.Value.eq_atEntry_of_needsSlot hleaf hn
    have hcar : t.Carried u := by
      rcases (kept_afterBody ht.accepted ht.lowerable).live hs with hcar | ⟨hused, -⟩
      · exact hcar
      · exact ht.contained u hused n kind flags hv
    obtain ⟨s', hs', -⟩ := c.exists_parameter hcar
    have hl := lookup_afterBody ht.accepted hs' ⟨_, hv, hleaf⟩
    exact Or.inl ⟨hcar, hs'.trans (hl.symm.trans hs)⟩
  | false =>
    rcases (ready_afterBody ht.accepted).pending hs with ⟨v', hv', hleaf'⟩ | ⟨hmem, hno⟩
    · rw [Option.some.inj (hv.symm.trans hv'), hleaf'] at hleaf
      cases hleaf
    · exact Or.inr ⟨(List.mem_append.1 hmem).resolve_right hno, hno, v, hv, hleaf⟩

/-- The moves are part of the loop. -/
theorem mem_straight_afterBody {i : Instruction} (hi : i ∈ Move.stepCode c.steps) :
    i ∈ c.afterBody.straight := by
  have hmoves : i ∈ c.afterMoves.straight := List.mem_append_left _ hi
  exact (straight_passAll_suffix (j := ofTrace t settings) c.afterMoves t.body).subset hmoves

/-- **The moves carry the environment over**: from a store at the beginning of an iteration that
agrees with the environment there they come, through the body, to one that agrees with the
environment of the next iteration. -/
theorem agrees_carry (ht : t.Closed) {m m' : Memory W V} {env env' : ValueId → V}
    (hag : c.afterBody.pool.Agrees m.store env) (hag' : c.written.Agrees m'.store env')
    (hkept : ∀ {s}, (∀ i ∈ c.afterBody.straight, i.writes ≠ some s) → m'.store s = m.store s)
    (hrun : t.runStream M t.body m.world env = .through m'.world env') :
    c.afterBody.pool.Agrees (M.performAll (Move.stepCode c.steps) m').store (t.carry M env') := by
  intro u s hs
  rcases bound_afterBody ht hs with ⟨-, hs'⟩ | ⟨hu, hbody, v, hv, hleaf⟩
  · exact agrees_moves ht.accepted ht.distinct hag' hs'
  · have hwrites := not_written_of_mem_prologue ht.accepted ht.lowerable hu hv hleaf hs
    have hcarry : t.carry M env' u = env' u := by
      refine Trace.carry_of_not_written (fun write hw hd => ?_) env'
      obtain ⟨w, hw', hl⟩ := carried_isLeaf ht.accepted (carried_of_mem_writes hw).1
      rw [hd, hv] at hw'
      rw [← Option.some.inj hw', hleaf] at hl
      cases hl
    have henv : env' u = env u := Trace.env_of_runStream hrun fun hm => absurd hm hbody
    have hmoves : (M.performAll (Move.stepCode c.steps) m').store s = m'.store s :=
      M.store_performAll fun i hi => hwrites i (mem_straight_afterBody hi)
    rw [hcarry, henv, hmoves, hkept hwrites]
    exact hag hs

/-- A parameter that no value is bound to is not written anywhere. -/
theorem not_written_of_parameter (ht : t.Closed) {s : Slot} (hs : s ∈ c.parameters.flatten)
    (hres : c.entered.Reserved s) : ∀ i ∈ c.final.straight, i.writes ≠ some s := by
  apply not_written_of_reserved ht.accepted ht.lowerable hres
  rintro rfl
  exact Nat.not_succ_le_zero 0 ((c.enters.nodup ht.distinct fun _ _ => rfl).2 _ hs)

/-- Code of the routine that brings the store to agree with another environment keeps the arguments
in the parameters, if only locals that are read have changed. -/
theorem map_parameters (ht : t.Closed) {filler : V} {store store' : Slot → V}
    {env env' : ValueId → V} (hargs : c.parameters.flatten.map store = t.arguments filler env)
    (hag : c.afterBody.pool.Agrees store' env')
    (henv : ∀ id ∈ t.entry, ¬ t.Reads id → env' id = env id)
    (hkept : ∀ s, (∀ i ∈ c.final.straight, i.writes ≠ some s) → store' s = store s) :
    c.parameters.flatten.map store' = t.arguments filler env' := by
  apply c.enters.map_store ht.accepted.entry hargs
  · intro id hid s hr hs
    exact hag (lookup_afterBody ht.accepted (c.lookup_written_of_entered hs)
      (carried_isLeaf ht.accepted ⟨hid, hr⟩))
  · exact henv
  · intro s hs hres
    exact hkept s (not_written_of_parameter ht hs hres)

/-- What the memory holds at the beginning of an iteration: what is bound, and in the parameters
what would be handed to a routine that was entered then. -/
structure Opens (c : Course t settings) (filler : V) (m : Memory W V)
    (env : ValueId → V) : Prop where
  agrees : c.afterBody.pool.Agrees m.store env
  arguments : c.parameters.flatten.map m.store = t.arguments filler env

/-- What the memory holds at the beginning of an iteration it holds at the beginning of the next
one. -/
theorem Opens.carry (ht : t.Closed) {filler : V} {m m' : Memory W V} {env env' : ValueId → V}
    (ho : c.Opens filler m env) (hag' : c.written.Agrees m'.store env')
    (hkept : ∀ {s}, (∀ i ∈ c.afterBody.straight, i.writes ≠ some s) → m'.store s = m.store s)
    (hrun : t.runStream M t.body m.world env = .through m'.world env') :
    c.Opens filler (M.performAll (Move.stepCode c.steps) m') (t.carry M env') := by
  have hag : c.afterBody.pool.Agrees (M.performAll (Move.stepCode c.steps) m').store
      (t.carry M env') :=
    agrees_carry ht ho.agrees hag' hkept hrun
  refine ⟨hag, map_parameters ht ho.arguments hag ?_ ?_⟩
  · intro id hid hr
    have hcarry : t.carry M env' id = env' id := by
      refine Trace.carry_of_not_written (fun write hw hd => ?_) env'
      exact absurd (hd ▸ (carried_of_mem_writes hw).1.2) hr
    obtain ⟨n, kind, flags, hv⟩ := ht.accepted.entry id hid
    exact hcarry.trans (Trace.env_of_runStream hrun fun _ => ⟨_, hv, rfl⟩)
  · intro s hs
    have hwrites : ∀ i ∈ c.afterBody.straight, i.writes ≠ some s := by
      intro i hi
      exact hs i ((straight_passAll_suffix (j := ofTrace t settings) c.beforePrologue
        t.prologue).subset hi)
    exact (M.store_performAll fun i hi => hwrites i (mem_straight_afterBody hi)).trans
      (hkept hwrites)

end Course

end LoopTrace
