import LoopTrace.Proofs.Outcomes

/-!
# Where values are kept

A value has at most one slot in its life: it gets it at its last use, keeps it until its definition is
passed, and is not used before that. So the pools that the walk goes through agree about every value
that they bind, and the code can be told without them: from the trace and from where each value is kept
(`Course.row_afterBody`, `Course.code_final`).
-/

namespace LoopTrace

namespace Trace

/-- Whether the value is a guard. -/
def isGuard (t : Trace) (id : ValueId) : Bool :=
  match t.get? id with
  | some (.guard ..) => true
  | _ => false

theorem isGuard_iff {t : Trace} {id : ValueId} : t.isGuard id = true ↔ t.Guards id := by
  rw [isGuard, Guards]
  cases t.get? id with
  | none => simp
  | some v => cases v <;> simp

theorem isGuard_eq_false {t : Trace} {id : ValueId} (h : ¬ t.Guards id) : t.isGuard id = false := by
  rw [← Bool.not_eq_true, isGuard_iff]
  exact h

/-- The guards of the body, in order. -/
def guards (t : Trace) : List ValueId := t.body.filter t.isGuard

end Trace

/-- The code of a front, block by block. -/
def Front.row (f : Front) : List (List Instruction) := f.code :: f.later

namespace Job

variable (j : Job)

section Code

variable (place : Placement)

/-- The instruction for a value that is an operation or a call. -/
def instructionAt (id : ValueId) : Option Instruction :=
  match j.trace.get? id with
  | some (.operation op operands) =>
    some (.operate (place id) op (operands.map (j.operandAt place)))
  | some (.call method operands frame) =>
    some (.call (place id) (.method method) (j.settings.abi.ofMethod method)
      (operands.map (j.operandAt place)) (frame.map (Frame.map (j.operandAt place))))
  | _ => none

/-- The code of a stretch of instructions without guards. -/
def codeAt (ids : List ValueId) : List Instruction := ids.filterMap (j.instructionAt place)

/-- The exit for a value that is a guard. -/
def exitAt (id : ValueId) : Option GuardExit :=
  match j.trace.get? id with
  | some (.guard kind comparator left right frame) =>
    some ⟨id, kind, comparator, j.operandAt place left, j.operandAt place right,
      frame.map (Frame.map (j.operandAt place))⟩
  | _ => none

/-- The code of an instruction in front of a row of blocks. A guard ends a block of its own. -/
def rowBefore (id : ValueId) (row : List (List Instruction)) : List (List Instruction) :=
  match j.exitAt place id with
  | some g => g.code j.tagSlot Layout.bailoutId ⟨row.length⟩ :: row
  | none => row.modifyHead ((j.instructionAt place id).toList ++ ·)

/-- The code of instructions in front of a row of blocks. -/
def rowAt (ids : List ValueId) (row : List (List Instruction)) : List (List Instruction) :=
  ids.foldr (j.rowBefore place) row

/-- The move for a write; a local whose new value is not tracked stays as it is. -/
def moveAt (write : Trace.Write) : Option Move :=
  match j.operandAt place write.destination with
  | .slot d =>
    if j.operandAt place write.source = .undefined then none
    else some ⟨d, j.operandAt place write.source⟩
  | _ => none

/-- The moves that take values into the next iteration. -/
def movesAt : List Move :=
  (j.trace.writes.filterMap (j.moveAt place)).filter fun m => ¬ m.IsRedundant

end Code

/-- The pool after instructions have been passed. -/
def poolAfter (p : Pool) (ids : List ValueId) : Pool := (j.passAll ⟨p, [], []⟩ ids).pool

/-- Where values are kept while instructions are passed: where they were kept before, or the slot that
they get at the instruction. -/
def places (p : Pool) : List ValueId → Placement
  | [], u => p.lookup u
  | id :: ids, u =>
    match j.trace.get? id with
    | some v =>
      if v.isLeaf then places p ids u
      else ((j.taken (j.poolAfter p ids) id v).lookup u).or (places p ids u)
    | none => places p ids u

variable {j}

/-! ### Code that depends on what it mentions only -/

section Congr

variable {place place' : Placement} {id : ValueId} {v : Trace.Value}

theorem operandAt_congr (h : place id = place' id) :
    j.operandAt place id = j.operandAt place' id := by
  rw [operandAt, operandAt, h]

theorem map_operandAt_congr {ids : List ValueId} (h : ∀ u ∈ ids, place u = place' u) :
    ids.map (j.operandAt place) = ids.map (j.operandAt place') :=
  List.map_congr_left fun u hu => operandAt_congr (h u hu)

theorem frame_operandAt_congr {frame : Option (Frame ValueId)}
    (h : ∀ u ∈ (frame.map Frame.contents).getD [], place u = place' u) :
    frame.map (Frame.map (j.operandAt place)) = frame.map (Frame.map (j.operandAt place')) := by
  cases frame with
  | none => rfl
  | some frame =>
    have hl := map_operandAt_congr (j := j) fun u hu => h u (List.mem_append_left frame.stack hu)
    have hs := map_operandAt_congr (j := j) fun u hu => h u (List.mem_append_right frame.locals hu)
    rw [Option.map_some, Option.map_some, Frame.map, Frame.map, hl, hs]

theorem instructionAt_congr (hv : j.trace.get? id = some v)
    (h : ∀ u ∈ id :: v.uses, place u = place' u) :
    j.instructionAt place id = j.instructionAt place' id := by
  have hid := h id List.mem_cons_self
  have hops : ∀ u ∈ v.operands, place u = place' u := fun u hu =>
    h u (List.mem_cons_of_mem _ (List.mem_append_left _ hu))
  have hframe : ∀ u ∈ (v.frame?.map Frame.contents).getD [], place u = place' u := fun u hu =>
    h u (List.mem_cons_of_mem _ (List.mem_append_right _ hu))
  rw [instructionAt, instructionAt, hv]
  cases v with
  | operation op operands =>
    have ho : operands.map (j.operandAt place) = operands.map (j.operandAt place') :=
      map_operandAt_congr hops
    simp only [hid, ho]
  | call method operands frame =>
    have ho : operands.map (j.operandAt place) = operands.map (j.operandAt place') :=
      map_operandAt_congr hops
    have hf : frame.map (Frame.map (j.operandAt place)) =
        frame.map (Frame.map (j.operandAt place')) := frame_operandAt_congr hframe
    simp only [hid, ho, hf]
  | _ => rfl

theorem exitAt_congr (hv : j.trace.get? id = some v) (h : ∀ u ∈ v.uses, place u = place' u) :
    j.exitAt place id = j.exitAt place' id := by
  rw [exitAt, exitAt, hv]
  cases v with
  | guard kind comparator left right frame =>
    have hl : place left = place' left := h left List.mem_cons_self
    have hr : place right = place' right := h right (List.mem_cons_of_mem _ List.mem_cons_self)
    have hframe : ∀ u ∈ (frame.map Frame.contents).getD [], place u = place' u := fun u hu =>
      h u (List.mem_append_right [left, right] hu)
    simp only [operandAt_congr hl, operandAt_congr hr, frame_operandAt_congr hframe]
  | _ => rfl

theorem rowBefore_congr (hv : j.trace.get? id = some v)
    (h : v.isLeaf = false → ∀ u ∈ id :: v.uses, place u = place' u)
    (row : List (List Instruction)) : j.rowBefore place id row = j.rowBefore place' id row := by
  cases hleaf : v.isLeaf with
  | false =>
    rw [rowBefore, rowBefore, instructionAt_congr hv (h hleaf),
      exitAt_congr hv fun u hu => h hleaf u (List.mem_cons_of_mem _ hu)]
  | true =>
    rw [rowBefore, rowBefore, instructionAt, instructionAt, exitAt, exitAt, hv]
    cases v <;> first | rfl | cases hleaf

end Congr

/-! ### The code of one instruction -/

/-- Passing an instruction puts its code in front, with the slots that values have at that time. -/
theorem row_pass (f : Front) {id : ValueId} {v : Trace.Value} (hv : j.trace.get? id = some v) :
    (j.pass f id).row = j.rowBefore (j.taken f.pool id v).lookup id f.row := by
  rw [pass, rowBefore, exitAt, instructionAt, hv]
  cases v <;> rfl

/-- The code of instructions, if the slots that values have at the time of each are where they are
kept. -/
theorem row_passAll {place : Placement} (f : Front) {ids : List ValueId}
    (h : ∀ pre id post, ids = pre ++ id :: post → ∃ v, j.trace.get? id = some v ∧
      (v.isLeaf = false → ∀ u ∈ id :: v.uses,
        (j.taken (j.passAll f post).pool id v).lookup u = place u)) :
    (j.passAll f ids).row = j.rowAt place ids f.row := by
  induction ids with
  | nil => rfl
  | cons id ids ih =>
    obtain ⟨v, hv, hplace⟩ := h [] id ids rfl
    have hrest := ih fun pre id' post he => h (id :: pre) id' post (by rw [he]; rfl)
    rw [passAll_cons, row_pass _ hv, rowBefore_congr hv hplace, hrest]
    rfl

/-! ### Rows and guards -/

section Rows

variable {place : Placement}

theorem isSome_exitAt (id : ValueId) : (j.exitAt place id).isSome = j.trace.isGuard id := by
  rw [exitAt, Trace.isGuard]
  cases j.trace.get? id with
  | none => rfl
  | some v => cases v <;> rfl

theorem rowBefore_guard {id : ValueId} {g : GuardExit} (h : j.exitAt place id = some g)
    (row : List (List Instruction)) : j.rowBefore place id row =
      g.code j.tagSlot Layout.bailoutId ⟨row.length⟩ :: row := by
  rw [rowBefore, h]

theorem exitAt_eq_none {id : ValueId} (h : j.trace.isGuard id = false) :
    j.exitAt place id = none := by
  rw [← Option.not_isSome_iff_eq_none, isSome_exitAt, h]
  exact Bool.false_ne_true

theorem rowBefore_plain {id : ValueId} (h : j.trace.isGuard id = false)
    (row : List (List Instruction)) : j.rowBefore place id row =
      row.modifyHead ((j.instructionAt place id).toList ++ ·) := by
  rw [rowBefore, exitAt_eq_none h]

theorem exists_exitAt (place : Placement) {id : ValueId} (h : j.trace.isGuard id = true) :
    ∃ g, j.exitAt place id = some g :=
  Option.isSome_iff_exists.1 ((isSome_exitAt id).trans h)

theorem rowAt_cons (id : ValueId) (ids : List ValueId) (row : List (List Instruction)) :
    j.rowAt place (id :: ids) row = j.rowBefore place id (j.rowAt place ids row) := rfl

/-- Each guard makes one more block. -/
theorem length_rowAt (ids : List ValueId) (row : List (List Instruction)) :
    (j.rowAt place ids row).length = row.length + (ids.filter j.trace.isGuard).length := by
  induction ids with
  | nil => rfl
  | cons id ids ih =>
    rw [rowAt_cons, List.filter_cons]
    cases hg : j.trace.isGuard id with
    | true =>
      obtain ⟨g, he⟩ := exists_exitAt place hg
      rw [rowBefore_guard he, List.length_cons, ih]
      rfl
    | false => rw [rowBefore_plain hg, List.length_modifyHead, ih]; rfl

theorem rowAt_ne_nil {row : List (List Instruction)} (h : row ≠ []) (ids : List ValueId) :
    j.rowAt place ids row ≠ [] := by
  rw [← List.length_pos_iff, length_rowAt]
  exact Nat.add_pos_left (List.length_pos_iff.2 h) _

end Rows

/-! ### One slot for each value -/

/-- Where values are kept, as far as the walk has come with a pool. -/
structure Keeps (j : Job) (p : Pool) (place : Placement) : Prop where
  /-- What is bound is kept where it is bound. -/
  bound : ∀ {u s}, p.lookup u = some s → place u = some s
  /-- What has been kept anywhere is still bound there, or will not be used again. -/
  gone : ∀ {u s}, place u = some s → p.lookup u = some s ∨ u ∈ p.released
  /-- What is kept somewhere is to be kept there. -/
  fits : ∀ {u s}, place u = some s → ∃ v, j.trace.get? u = some v ∧ v.needsSlot = true ∧
    s.kind = v.kind

theorem keeps_lookup {p : Pool} (h : j.Fits p) : j.Keeps p p.lookup :=
  ⟨fun h => h, fun h => Or.inl h, h.bound⟩

section Keeps

variable {p q : Pool} {place : Placement} {ids : List ValueId}

/-- Once further values have their slots, what was kept somewhere is kept there, and the new ones are
kept in their slots. -/
theorem Keeps.or_of_lookup (h : j.Keeps p place) (ht : j.Takes p ids q) {u : ValueId} {s : Slot}
    (hu : place u = some s) : (q.lookup u).or (place u) = some s := by
  rcases h.gone hu with hl | hr
  · rw [ht.extension.kept hl, Option.some_or]
  · rw [ht.fits.sound.released u (ht.extension.released ▸ hr), Option.none_or, hu]

theorem mem_released_leave {p : Pool} {u id : ValueId} (hu : u ∈ p.released) :
    u ∈ (p.leave id).released := by
  rw [Pool.leave, Pool.release]
  cases p.lookup id with
  | none => exact hu
  | some s => exact List.mem_cons_of_mem _ hu

theorem mem_released_leave_self {p : Pool} {id : ValueId} {s : Slot} (h : p.lookup id = some s) :
    id ∈ (p.leave id).released := by
  rw [Pool.leave, Pool.release, h]
  exact List.mem_cons_self

theorem Keeps.leave (h : j.Keeps p place) (ht : j.Takes p ids q) (id : ValueId) :
    j.Keeps (q.leave id) fun u => (q.lookup u).or (place u) := by
  have hl := Pool.leave_leaves ht.fits.sound id
  refine ⟨fun {u s} hu => ?_, fun {u s} hu => ?_, fun {u s} hu => ?_⟩
  · rw [hl.lookup] at hu
    split at hu
    · cases hu
    · rw [hu, Option.some_or]
  · rcases Option.or_eq_some_iff.1 hu with hq | ⟨hq, hp⟩
    · by_cases hid : u = id
      · subst hid
        exact Or.inr (mem_released_leave_self hq)
      · exact Or.inl (by rw [hl.lookup, if_neg hid, hq])
    · rcases h.gone hp with hp | hr
      · rw [ht.extension.kept hp] at hq
        cases hq
      · exact Or.inr (mem_released_leave (ht.extension.released ▸ hr))
  · rcases Option.or_eq_some_iff.1 hu with hq | ⟨-, hp⟩
    · exact ht.fits.bound hq
    · exact h.fits hp

end Keeps

theorem pool_pass_congr {f g : Front} (h : f.pool = g.pool) (id : ValueId) :
    (j.pass f id).pool = (j.pass g id).pool := by
  rw [pass, pass, h]
  cases j.trace.get? id with
  | none => exact h
  | some v => cases v <;> first | exact h | rfl

theorem pool_passAll (f : Front) (ids : List ValueId) :
    (j.passAll f ids).pool = j.poolAfter f.pool ids := by
  induction ids with
  | nil => rfl
  | cons id ids ih => exact pool_pass_congr ih id

theorem poolAfter_append (p : Pool) (ids ids' : List ValueId) :
    j.poolAfter p (ids ++ ids') = j.poolAfter (j.poolAfter p ids') ids := by
  rw [poolAfter, passAll_append, pool_passAll]
  rfl

/-! ### Places along the walk -/

section Cons

variable (p : Pool) {id : ValueId} (ids : List ValueId) {v : Trace.Value}
  (hv : j.trace.get? id = some v)

include hv

theorem poolAfter_cons_of_isLeaf (hleaf : v.isLeaf = true) :
    j.poolAfter p (id :: ids) = j.poolAfter p ids := by
  rw [poolAfter, passAll_cons, pass_of_isLeaf hv hleaf]
  rfl

theorem places_cons_of_isLeaf (hleaf : v.isLeaf = true) :
    j.places p (id :: ids) = j.places p ids := by
  funext u
  rw [places, hv]
  exact if_pos hleaf

theorem places_cons_of_not_isLeaf (hleaf : v.isLeaf = false) :
    j.places p (id :: ids) = fun u =>
      ((j.taken (j.poolAfter p ids) id v).lookup u).or (j.places p ids u) := by
  funext u
  rw [places, hv]
  exact if_neg (by rw [hleaf]; exact Bool.false_ne_true)

end Cons

section Places

variable {p : Pool} (hacc : j.trace.Accepted) (h : j.Ready [] p)

include hacc h

theorem ready_poolAfter {pre ids : List ValueId} (hs : j.trace.stream = pre ++ ids) :
    j.Ready ids (j.poolAfter p ids) := by
  have hs' : j.trace.stream = pre ++ ids ++ [] := by rw [hs, List.append_nil]
  have := h.passAll (f := ⟨p, [], []⟩) hacc hs'
  rwa [List.append_nil] at this

theorem poolAfter_cons {pre ids : List ValueId} {id : ValueId} {v : Trace.Value}
    (hs : j.trace.stream = pre ++ id :: ids) (hv : j.trace.get? id = some v)
    (hleaf : v.isLeaf = false) :
    j.poolAfter p (id :: ids) = (j.taken (j.poolAfter p ids) id v).leave id := by
  have hids : j.trace.stream = (pre ++ [id]) ++ ids := hs.trans (List.append_cons ..)
  exact pool_pass (ready_poolAfter hacc h hids) hacc hs hv hleaf rfl

/-- What an instruction does to where values are kept. -/
theorem places_cons {pre ids : List ValueId} {id : ValueId} {v : Trace.Value}
    (hs : j.trace.stream = pre ++ id :: ids) (hv : j.trace.get? id = some v)
    (hk : j.Keeps (j.poolAfter p ids) (j.places p ids)) :
    j.Keeps (j.poolAfter p (id :: ids)) (j.places p (id :: ids)) ∧
      (∀ u s, j.places p ids u = some s → j.places p (id :: ids) u = some s) ∧
      (v.isLeaf = false → ∀ u s, (j.taken (j.poolAfter p ids) id v).lookup u = some s →
        j.places p (id :: ids) u = some s) := by
  have hids : j.trace.stream = (pre ++ [id]) ++ ids := hs.trans (List.append_cons ..)
  have hready := ready_poolAfter hacc h hids
  cases hleaf : v.isLeaf with
  | true =>
    rw [poolAfter_cons_of_isLeaf p ids hv hleaf, places_cons_of_isLeaf p ids hv hleaf]
    exact ⟨hk, fun _ _ hu => hu, fun hno => Bool.noConfusion hno⟩
  | false =>
    have ht := hready.taken hacc hs hv
    rw [poolAfter_cons hacc h hs hv hleaf, places_cons_of_not_isLeaf p ids hv hleaf]
    exact ⟨hk.leave ht id, fun _ _ hu => hk.or_of_lookup ht hu, fun _ u s hu => by
      simp only [hu, Option.some_or]⟩

/-- Along the whole walk there is one place for each value. -/
theorem keeps_places {pre ids : List ValueId} (hs : j.trace.stream = pre ++ ids) :
    j.Keeps (j.poolAfter p ids) (j.places p ids) := by
  induction ids generalizing pre with
  | nil => exact keeps_lookup h.fits
  | cons id ids ih =>
    have hids : j.trace.stream = (pre ++ [id]) ++ ids := hs.trans (List.append_cons ..)
    obtain ⟨v, hv⟩ := hacc.stream pre id ids hs
    exact (places_cons hacc h hs hv.value (ih hids)).1

theorem places_append {pre a ids : List ValueId} (hs : j.trace.stream = pre ++ a ++ ids)
    {u : ValueId} {s : Slot} (hu : j.places p ids u = some s) :
    j.places p (a ++ ids) u = some s := by
  induction a generalizing pre with
  | nil => exact hu
  | cons id a ih =>
    have hs' : j.trace.stream = pre ++ id :: (a ++ ids) := by rw [hs]; simp
    obtain ⟨v, hv⟩ := hacc.stream pre id (a ++ ids) hs'
    have hs'' : j.trace.stream = (pre ++ [id]) ++ a ++ ids := by rw [hs]; simp
    have hk := keeps_places hacc h (hs''.trans (List.append_assoc _ _ _))
    exact (places_cons hacc h hs' hv.value hk).2.1 u s (ih hs'')

/-- At the time of an instruction, what it mentions has the slots where it is kept. -/
theorem lookup_taken {pre ids : List ValueId} {id : ValueId} {v : Trace.Value}
    (hs : j.trace.stream = pre ++ id :: ids) (hv : j.trace.get? id = some v)
    (hleaf : v.isLeaf = false) :
    ∀ u ∈ id :: v.uses,
      (j.taken (j.poolAfter p ids) id v).lookup u = j.places p j.trace.stream u := by
  intro u hu
  have hids : j.trace.stream = (pre ++ [id]) ++ ids := hs.trans (List.append_cons ..)
  have hready := ready_poolAfter hacc h hids
  have ht := hready.taken hacc hs hv
  have hplaces := (places_cons hacc h hs hv (keeps_places hacc h hids)).2.2 hleaf
  have hlater : ∀ {s}, j.places p (id :: ids) u = some s →
      j.places p j.trace.stream u = some s := fun {s} hs' => by
    have hstream : j.trace.stream = [] ++ pre ++ (id :: ids) := by rw [hs]; simp
    have := places_append hacc h hstream hs'
    rwa [← hs] at this
  cases hl : (j.taken (j.poolAfter p ids) id v).lookup u with
  | some s => exact (hlater (hplaces u s hl)).symm
  | none =>
    -- what has no slot then needs none
    cases hp : j.places p j.trace.stream u with
    | none => rfl
    | some s =>
      have hall : j.trace.stream = [] ++ j.trace.stream := rfl
      obtain ⟨w, hw, hn, -⟩ := (keeps_places hacc h hall).fits hp
      obtain ⟨s', hs'⟩ := ht.served hu hw hn
      rw [hl] at hs'
      cases hs'

end Places

/-! ### Stretches without guards -/

theorem codeAt_nil (place : Placement) : j.codeAt place [] = [] := rfl

theorem codeAt_cons (place : Placement) (id : ValueId) (ids : List ValueId) :
    j.codeAt place (id :: ids) = (j.instructionAt place id).toList ++ j.codeAt place ids := by
  rw [codeAt, List.filterMap_cons]
  cases j.instructionAt place id <;> rfl

/-- Without guards all code comes to stand in the first block. -/
theorem rowAt_of_not_guards {place : Placement} {ids : List ValueId}
    (h : ∀ id ∈ ids, ¬ j.trace.Guards id) (code : List Instruction)
    (later : List (List Instruction)) :
    j.rowAt place ids (code :: later) = (j.codeAt place ids ++ code) :: later := by
  induction ids with
  | nil => rfl
  | cons id ids ih =>
    have hrest := ih fun u hu => h u (List.mem_cons_of_mem _ hu)
    rw [rowAt_cons, hrest, rowBefore_plain (Trace.isGuard_eq_false (h id List.mem_cons_self)),
      codeAt_cons, List.append_assoc]
    rfl

end Job

/-! ### The code of a routine -/

namespace Course

open Job

variable {t : Trace} {settings : Settings} (c : Course t settings)

/-- Where values are kept in the routine. -/
def placement : Placement := (ofTrace t settings).places c.written t.stream

variable {c}

theorem keeps_placement (hacc : t.Accepted) :
    (ofTrace t settings).Keeps ((ofTrace t settings).poolAfter c.written t.stream) c.placement := by
  have hall : t.stream = [] ++ t.stream := rfl
  exact keeps_places (j := ofTrace t settings) hacc (c.ready_afterMoves hacc) hall

/-- What is bound before the body is kept there. -/
theorem placement_of_lookup_written (hacc : t.Accepted) {u : ValueId} {s : Slot}
    (hu : c.written.lookup u = some s) : c.placement u = some s := by
  have hall : t.stream = [] ++ t.stream ++ [] := (List.append_nil _).symm
  have := places_append (j := ofTrace t settings) hacc (c.ready_afterMoves hacc) hall hu
  rwa [List.append_nil] at this

/-- What an instruction mentions is kept somewhere if it needs a slot. -/
theorem exists_placement (hacc : t.Accepted) {pre post : List ValueId} {id : ValueId}
    {v : Trace.Value} (hs : t.stream = pre ++ id :: post) (hv : t.get? id = some v)
    (hleaf : v.isLeaf = false) {u : ValueId} {w : Trace.Value} (hu : u ∈ id :: v.uses)
    (hw : t.get? u = some w) (hn : w.needsSlot = true) : ∃ s, c.placement u = some s := by
  have hpost : t.stream = (pre ++ [id]) ++ post := hs.trans (List.append_cons ..)
  have hready := ready_poolAfter (j := ofTrace t settings) hacc (c.ready_afterMoves hacc) hpost
  obtain ⟨s, hl⟩ := (hready.taken (j := ofTrace t settings) hacc hs hv).served hu hw hn
  rw [Job.lookup_taken (j := ofTrace t settings) hacc (c.ready_afterMoves hacc) hs hv hleaf u hu]
    at hl
  exact ⟨s, hl⟩

/-- What a write mentions is kept where it is when the moves are made. -/
theorem placement_of_write (hacc : t.Accepted) {write : Trace.Write} (hw : write ∈ t.writes)
    {u : ValueId} (hu : u ∈ write.ends) : c.placement u = c.written.lookup u := by
  cases hl : c.written.lookup u with
  | some s => exact placement_of_lookup_written hacc hl
  | none =>
    cases hp : c.placement u with
    | none => rfl
    | some s =>
      obtain ⟨v, hv, hn, -⟩ := (keeps_placement hacc).fits hp
      obtain ⟨s', hs'⟩ := c.written_takes.served (List.mem_flatMap.2 ⟨write, hw, hu⟩) hv hn
      rw [← c.lookup_written, hl] at hs'
      cases hs'

/-- The moves are between the places where the values are kept. -/
theorem backMoves_eq (hacc : t.Accepted) :
    (ofTrace t settings).backMoves ((ofTrace t settings).written c.entered) =
      (ofTrace t settings).movesAt c.placement := by
  have hmove : ∀ write ∈ t.writes,
      (ofTrace t settings).moveIn ((ofTrace t settings).written c.entered) write =
        (ofTrace t settings).moveAt c.placement write := by
    intro write hw
    have hends : ∀ u ∈ write.ends, (ofTrace t settings).operandAt c.placement u =
        (ofTrace t settings).operand ((ofTrace t settings).written c.entered) u := fun u hu =>
      operandAt_congr ((placement_of_write hacc hw hu).trans (c.lookup_written u))
    rw [moveAt, hends write.destination (by simp [Trace.Write.ends]),
      hends write.source (by simp [Trace.Write.ends])]
    rfl
  rw [backMoves, movesAt]
  exact congrArg _ (List.filterMap_congr hmove)

/-- At the time of an instruction, what it mentions has the slots where it is kept. -/
theorem lookup_taken (hacc : t.Accepted) {pre post : List ValueId} {id : ValueId}
    (hs : t.stream = pre ++ id :: post) :
    ∃ v, t.get? id = some v ∧ (v.isLeaf = false → ∀ u ∈ id :: v.uses,
      ((ofTrace t settings).taken ((ofTrace t settings).poolAfter c.written post) id v).lookup u =
        c.placement u) := by
  obtain ⟨v, hv⟩ := hacc.stream pre id post hs
  exact ⟨v, hv.value, fun hleaf => Job.lookup_taken (j := ofTrace t settings) hacc
    (c.ready_afterMoves hacc) hs hv.value hleaf⟩

/-- The blocks of the loop, as far as the body has been passed. -/
theorem row_body (hacc : t.Accepted) {pre passed : List ValueId} (h : pre ++ passed = t.body) :
    ((ofTrace t settings).passAll c.afterMoves passed).row =
      (ofTrace t settings).rowAt c.placement passed [Move.stepCode c.steps] := by
  refine row_passAll (j := ofTrace t settings) c.afterMoves fun pre' id post he => ?_
  rw [pool_passAll]
  have hs : t.stream = (t.prologue ++ pre ++ pre') ++ id :: post := by
    rw [Trace.stream, ← h, he]
    simp
  exact lookup_taken hacc hs

/-- The blocks of the loop. -/
theorem row_afterBody (hacc : t.Accepted) :
    c.afterBody.row = (ofTrace t settings).rowAt c.placement t.body [Move.stepCode c.steps] :=
  row_body hacc (List.nil_append t.body)

/-- The blocks of the loop behind the prologue's, as far as the prologue has been passed. -/
theorem row_prologue (hacc : t.Accepted) {pre passed : List ValueId} (h : pre ++ passed = t.prologue)
    (hids : ∀ id ∈ passed, ¬ t.Guards id) :
    ((ofTrace t settings).passAll c.beforePrologue passed).row =
      (ofTrace t settings).codeAt c.placement passed :: c.afterBody.row := by
  have hrow : ((ofTrace t settings).passAll c.beforePrologue passed).row =
      (ofTrace t settings).rowAt c.placement passed c.beforePrologue.row := by
    refine row_passAll (j := ofTrace t settings) c.beforePrologue fun pre' id post he => ?_
    have hp : ((ofTrace t settings).passAll c.beforePrologue post).pool =
        (ofTrace t settings).poolAfter c.written (post ++ t.body) := by
      rw [pool_passAll, poolAfter_append]
      exact congrArg (fun p => (ofTrace t settings).poolAfter p post)
        (pool_passAll (j := ofTrace t settings) c.afterMoves t.body)
    rw [hp]
    have hs : t.stream = (pre ++ pre') ++ id :: (post ++ t.body) := by
      rw [Trace.stream, ← h, he]
      simp
    exact lookup_taken hacc hs
  have hbefore : c.beforePrologue.row = [] :: c.afterBody.row := rfl
  rw [hrow, hbefore, rowAt_of_not_guards (j := ofTrace t settings) hids, List.append_nil]

theorem row_final (hacc : t.Accepted) (h : t.Lowerable) :
    c.final.row = (ofTrace t settings).codeAt c.placement t.prologue :: c.afterBody.row :=
  row_prologue hacc (List.nil_append t.prologue) h.prologue

/-- The pool at the end is that after the whole stream. -/
theorem pool_final : c.final.pool = (ofTrace t settings).poolAfter c.written t.stream := by
  rw [final, pool_passAll, Trace.stream, poolAfter_append]
  exact congrArg (fun p => (ofTrace t settings).poolAfter p t.prologue)
    (pool_passAll (j := ofTrace t settings) c.afterMoves t.body)

/-- The code before the loop. -/
theorem layout_prologue_eq (hacc : t.Accepted) (h : t.Lowerable) :
    c.layout.prologue = (ofTrace t settings).codeAt c.placement t.prologue :=
  (List.cons.inj (row_final hacc h)).1

/-- The code of the loop, block by block. -/
theorem layout_loop_eq (hacc : t.Accepted) (h : t.Lowerable) :
    c.layout.loop = (ofTrace t settings).rowAt c.placement t.body [Move.stepCode c.steps] :=
  (List.cons.inj (row_final hacc h)).2.trans (row_afterBody hacc)

end Course

end LoopTrace
