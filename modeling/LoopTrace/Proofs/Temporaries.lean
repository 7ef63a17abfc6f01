import LoopTrace.Proofs.Outcomes
import LoopTrace.Proofs.Supplies
import Mathlib.Data.Option.Basic

/-!
# What the ordering of the moves relies on

The ordering of moves relies on two things: that the moves have destinations of their own, and that the
temporaries it is supplied with are new. The walk is such a supply for whatever moves it has come to
(`Trace.Reaches`): a temporary has a number that no slot has had, the tag's slot included, as nothing
has been released by then. That the destinations differ is nowhere checked. They do exactly if the
locals that take a tracked value differ, and the rules for traces do not forbid that the entry state
lists a local twice (`reaches_doubled`).
-/

namespace LoopTrace

namespace Walk.Step

/-- Handing out a slot binds nothing. -/
theorem bindings_of_allocate {kind : Kind} {mode : Pool.Mode} {s : Slot} {w w' : Walk}
    (h : (Walk.allocate kind mode).run.run w = (.ok s, w')) : w'.pool.bindings = w.pool.bindings := by
  obtain ⟨w₁, h₁, hfront⟩ := allocate_gives kind mode rfl w rfl
  rw [h₁] at h
  cases h
  exact (congrArg (fun f => f.pool.bindings) hfront).trans (Pool.bindings_allocate _ _ _)

end Walk.Step

namespace Move

open Walk.Step

/-! ### The supply of the walk -/

/-- A slot that the walk has handed out, and the pool that it was taken from. -/
structure Handout where
  pool : Pool
  slot : Slot

/-- The supply of temporaries that the walk has, which keeps a list of what it hands out. -/
def handing (kind : Kind) : StateT (List Handout) Walk.Step Slot := fun before => do
  let w ← get
  let slot ← Walk.allocate kind .shared
  return (slot, before ++ [⟨w.pool, slot⟩])

/-- Keeping the list changes nothing. What it lists are the temporaries, and nothing is bound or set free
between them. -/
theorem order_handing {limit : Nat} {pending : List Move} {w w' : Walk} {steps : List Step}
    (h : (order (fun kind => Walk.allocate kind .shared) (fun step => Walk.note (.moved step)) limit
      pending).run.run w = (.ok steps, w')) (before : List Handout) :
    ∃ handouts,
      ((order handing (fun step => StateT.lift (Walk.note (.moved step))) limit pending).run
        before).run.run w = (.ok (steps, before ++ handouts), w') ∧
      handouts.map Handout.slot = temporaries steps ∧
      ∀ x ∈ handouts, x.pool.bindings = w.pool.bindings := by
  induction limit generalizing pending w steps before with
  | zero =>
    rw [order] at h
    cases h
    exact ⟨[], by rw [List.append_nil]; rfl, rfl, fun x hx => absurd hx List.not_mem_nil⟩
  | succ limit ih =>
    cases pending with
    | nil =>
      cases h
      exact ⟨[], by rw [List.append_nil]; rfl, rfl, fun x hx => absurd hx List.not_mem_nil⟩
    | cons first rest =>
      rw [order] at h ⊢
      cases ht : takeReady (first :: rest) (first :: rest) with
      | some next =>
        simp only [ht, StateT.run_bind, StateT.run_lift, StateT.run_pure, bind_assoc, pure_bind] at h ⊢
        obtain ⟨⟨⟩, w₁, hnote, h⟩ := exists_of_run_bind h
        obtain ⟨others, w₂, horder, h⟩ := exists_of_run_bind h
        cases h
        obtain ⟨handouts, hrun, hslots, hpools⟩ := ih horder before
        cases hnote
        exact ⟨handouts, run_bind_of_ok rfl (run_bind_of_ok hrun rfl), hslots, hpools⟩
      | none =>
        simp only [ht, StateT.run_bind, StateT.run_lift, StateT.run_pure, bind_assoc, pure_bind] at h ⊢
        obtain ⟨temporary, w₁, hallocate, h⟩ := exists_of_run_bind h
        obtain ⟨⟨⟩, w₂, hnote, h⟩ := exists_of_run_bind h
        obtain ⟨others, w₃, horder, h⟩ := exists_of_run_bind h
        cases h
        obtain ⟨handouts, hrun, hslots, hpools⟩ := ih horder (before ++ [⟨w.pool, temporary⟩])
        rw [List.append_assoc] at hrun
        have hhand : ((handing first.destination.kind).run before).run.run w =
            (.ok (temporary, before ++ [⟨w.pool, temporary⟩]), w₁) :=
          run_bind_of_ok (a := w) rfl (run_bind_of_ok hallocate rfl)
        have hpool : w₂.pool.bindings = w.pool.bindings := by
          cases hnote
          exact (bindings_of_allocate hallocate : w₁.pool.bindings = _)
        refine ⟨⟨w.pool, temporary⟩ :: handouts, ?_, congrArg (temporary :: ·) hslots, ?_⟩
        · exact run_bind_of_ok hhand (run_bind_of_ok hnote (run_bind_of_ok hrun rfl))
        · exact List.forall_mem_cons.2 ⟨rfl, fun x hx => (hpools x hx).trans hpool⟩

/-- What is handed out may serve as temporaries for the moves: slots that are new to them and differ,
none of which is the tag's slot or is bound when it is handed out. -/
structure Honours (moves : List Move) (tagSlot : Slot) (handouts : List Handout) : Prop where
  fresh : Fresh moves (handouts.map Handout.slot)
  tag : ∀ x ∈ handouts, x.slot ≠ tagSlot
  unbound : ∀ x ∈ handouts, x.slot ∉ x.pool.bound

end Move

namespace Trace

open Job Course

variable {t : Trace} {settings : Settings}

/-- The walk over the trace comes to the ordering of these moves, and this is where it stands then. -/
def Reaches (t : Trace) (settings : Settings) (moves : List Move) (w : Walk) : Prop :=
  ∃ parameters, (ofTrace t settings).untilMoves.run.run { pool := (Session.opening settings).2 } =
    (.ok (parameters, moves), w)

/-- A walk that comes to the moves is on its course. -/
theorem Reaches.exists_course (hacc : t.Accepted) {moves : List Move} {w : Walk}
    (h : t.Reaches settings moves w) :
    ∃ c : Course t settings, moves = c.moves ∧ w.front = ⟨c.used, [], []⟩ := by
  obtain ⟨parameters, h⟩ := h
  have hvalues : ¬ t.Valueless := fun hbad => by
    obtain ⟨e, w', he, -⟩ := @untilMoves_fails t settings hacc hbad
      { pool := (Session.opening settings).2 } rfl
    rw [h] at he
    cases he
  obtain ⟨c, hparams, -⟩ := @Course.exists_course t settings hacc hvalues
  obtain ⟨w', hw', hfront⟩ := c.untilMoves_gives hparams { pool := (Session.opening settings).2 } rfl
  rw [h] at hw'
  cases hw'
  exact ⟨c, rfl, hfront⟩

/-- The writes that make a move: a local whose new value is not tracked stays as it is. -/
def trackedWrites (t : Trace) : List Write :=
  t.writes.filter fun write => t.get? write.source ≠ some .untracked

end Trace

namespace Course

open Job Trace

variable {t : Trace} {settings : Settings} (c : Course t settings)

/-- What the moves use has its slot. -/
theorem lookup_used {write : Write} (hw : write ∈ t.writes) {u : ValueId} (hu : u ∈ write.ends)
    {v : Value} (hv : t.get? u = some v) (hn : v.needsSlot = true) : ∃ s, c.used.lookup u = some s :=
  c.written_takes.served (List.mem_flatMap.2 ⟨write, hw, hu⟩) hv hn

theorem lookup_destination {write : Write} (hw : write ∈ t.writes) :
    ∃ d, c.used.lookup write.destination = some d := by
  obtain ⟨v, hv, hn⟩ := (c.writable write hw).destination
  exact c.lookup_used hw (by simp [Write.ends]) hv hn

/-- A write makes a move into the slot of its local, or none if its new value is not tracked. -/
theorem moveIn_write {write : Write} (hw : write ∈ t.writes) :
    ((ofTrace t settings).moveIn c.used write).map (some ∘ Move.destination) =
      if t.get? write.source ≠ some .untracked then some (c.used.lookup write.destination)
      else none := by
  obtain ⟨v, hv, hvoid⟩ := (c.writable write hw).source
  have hv : t.get? write.source = some v := hv
  obtain ⟨d, hd⟩ := c.lookup_destination hw
  have hfits : (ofTrace t settings).Fits c.used := c.written_takes.fits
  rw [moveIn, operand_of_lookup hfits hd, hd, hv]
  dsimp only
  by_cases htracked : v = .untracked
  · rw [if_pos (operand_untracked hfits (htracked ▸ hv)), if_neg (by simp [htracked])]
    rfl
  · have hne : (ofTrace t settings).operand c.used write.source ≠ .undefined :=
      operandAt_ne_undefined hv hvoid htracked (c.lookup_used hw (by simp [Write.ends]) hv)
    rw [if_neg hne, if_pos (by simp [htracked])]
    rfl

/-- The moves have destinations of their own exactly if the locals that take a tracked value
differ. -/
theorem nodup_destination_iff :
    (c.moves.map Move.destination).Nodup ↔ (t.trackedWrites.map Write.destination).Nodup := by
  have hmap : c.moves.map (some ∘ Move.destination) =
      (t.trackedWrites.map Write.destination).map c.used.lookup := by
    rw [moves, List.map_filterMap, List.map_map, trackedWrites, ← List.filterMap_eq_map,
      List.filterMap_filter]
    refine List.filterMap_congr fun write hw => (c.moveIn_write hw).trans ?_
    simp
  have hinj : ∀ u ∈ t.trackedWrites.map Write.destination,
      ∀ v ∈ t.trackedWrites.map Write.destination, c.used.lookup u = c.used.lookup v → u = v := by
    intro u hu v hv he
    obtain ⟨write, hw, rfl⟩ := List.mem_map.1 hu
    obtain ⟨d, hd⟩ := c.lookup_destination (List.mem_of_mem_filter hw)
    exact c.written_takes.fits.sound.lookup_inj hd (he ▸ hd)
  rw [← List.nodup_map_iff (Option.some_injective Slot), List.map_map, hmap]
  exact ⟨List.Nodup.of_map _, fun h => h.map_on hinj⟩

end Course

namespace Trace

open Job Course

/-- **What the walk hands to the ordering.** The moves that it comes to have destinations of their own
exactly if the locals that take a tracked value differ. The temporaries that it supplies are good ones
in any case. -/
theorem schedule_honours (t : Trace) (settings : Settings) (hcheck : t.check = .ok ())
    {moves : List Move} {w : Walk} (hreach : t.Reaches settings moves w) :
    ((moves.map Move.destination).Nodup ↔ (t.trackedWrites.map Write.destination).Nodup) ∧
    ∃ steps handouts w',
      (Move.schedule (fun kind => Walk.allocate kind .shared) (fun step => Walk.note (.moved step))
        moves).run.run w = (.ok steps, w') ∧
      ((Move.schedule Move.handing (fun step => StateT.lift (Walk.note (.moved step)))
        moves).run []).run.run w = (.ok (steps, handouts), w') ∧
      Move.Honours moves (ofTrace t settings).tagSlot handouts := by
  obtain ⟨c, rfl, hfront⟩ := hreach.exists_course (check_eq_ok_iff.1 hcheck)
  refine ⟨c.nodup_destination_iff, ?_⟩
  have ht := c.written_takes
  have hfree : c.used.free = [] := List.subset_nil.1 (c.enters.free rfl ▸ ht.free)
  have hbelow : Move.Below c.used.next c.moves := below_moves ht.fits
  obtain ⟨steps, o, hgives, hordered⟩ :=
    Move.schedule_gives (f := ⟨c.used, [], []⟩) hfree hbelow
  obtain ⟨w', hrun, -⟩ := hgives w hfront
  obtain ⟨handouts, hhanding, hslots, hpools⟩ := Move.order_handing hrun []
  -- what is bound has a number, and the tag's slot has one; those of temporaries come after them
  have hnew : ∀ x ∈ handouts, c.used.next ≤ x.slot.serial := fun x hx =>
    (hordered.temporaries.2 _ (hslots ▸ List.mem_map_of_mem hx)).1
  have htag : c.used.Reserved (ofTrace t settings).tagSlot :=
    ht.extension.reserved (c.enters.extension.reserved (reserved_tagSlot (t := t)))
  have hpool : w.pool = c.used := congrArg Front.pool hfront
  refine ⟨steps, handouts, w', hrun, hhanding, hslots ▸ hordered.fresh hbelow, ?_, ?_⟩
  · intro x hx he
    exact absurd htag.minted (Nat.not_lt.2 (he ▸ hnew x hx))
  · intro x hx hbound
    rw [Pool.bound, hpools x hx, hpool] at hbound
    exact absurd (ht.fits.sound.minted _ (Or.inl hbound)) (Nat.not_lt.2 (hnew x hx))

/-- A loop that swaps two locals. -/
def swapping : Trace where
  anchor := ⟨"Sample", "swapping", [.int, .int], .void, .managed⟩
  position := 0
  values := #[.atEntry 0 .int ⟨true, true⟩, .atEntry 1 .int ⟨true, true⟩,
    .operation .intSub [⟨0⟩, ⟨1⟩]]
  prologue := []
  body := [⟨2⟩]
  entry := [⟨0⟩, ⟨1⟩]
  tail := [⟨1⟩, ⟨0⟩]

theorem schedule_honours_swapping :
    swapping.check = .ok () ∧ ∃ moves w, swapping.Reaches {} moves w ∧
      (moves.map Move.destination).Nodup ∧
      ∃ steps handouts w',
        (Move.schedule (fun kind => Walk.allocate kind .shared) (fun step => Walk.note (.moved step))
          moves).run.run w = (.ok steps, w') ∧
        ((Move.schedule Move.handing (fun step => StateT.lift (Walk.note (.moved step)))
          moves).run []).run.run w = (.ok (steps, handouts), w') ∧
        Move.Honours moves (ofTrace swapping {}).tagSlot handouts := by
  have hreach : swapping.Reaches {}
      [⟨⟨.int, 1⟩, .slot ⟨.int, 2⟩⟩, ⟨⟨.int, 2⟩, .slot ⟨.int, 1⟩⟩] _ := ⟨_, rfl⟩
  obtain ⟨hdistinct, hsupply⟩ := schedule_honours swapping {} (by decide) hreach
  exact ⟨by decide, _, _, hreach, hdistinct.2 (by decide), hsupply⟩

/-- The entry state lists one local twice, with another value at the tail each time. -/
def doubled : Trace where
  anchor := ⟨"Sample", "doubled", [.int], .void, .managed⟩
  position := 0
  values := #[.atEntry 0 .int ⟨true, true⟩, .constant (.int 1), .constant (.int 2),
    .operation .intNeg [⟨0⟩]]
  prologue := []
  body := [⟨3⟩]
  entry := [⟨0⟩, ⟨0⟩]
  tail := [⟨1⟩, ⟨2⟩]

/-- The trace is accepted, and the walk comes to two moves into one slot. -/
theorem reaches_doubled : doubled.check = .ok () ∧ ∃ moves w, doubled.Reaches {} moves w ∧
    ¬ (moves.map Move.destination).Nodup :=
  ⟨by decide, [⟨⟨.int, 1⟩, .immediate (.int 1)⟩, ⟨⟨.int, 1⟩, .immediate (.int 2)⟩], _, ⟨_, rfl⟩,
    by decide⟩

end Trace

end LoopTrace
