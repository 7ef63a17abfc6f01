import LoopTrace.Proofs.Uses
import LoopTrace.Proofs.Validity

/-!
# Passing an instruction

What the walk does at one instruction, as a function of the front: the result and everything that
the instruction uses get their slots, its code is put in front, and the result is released. A guard
closes the block that is being filled. The walk over a stream passes its instructions from the last
to the first.

The walk is ready for the instructions before those of `rest` if what it has released stands in
`rest` and what it keeps bound does not. The uses of an instruction stand before it, so that none of
them is released and the walk stays ready.
-/

namespace LoopTrace

namespace Trace

/-- The value is a call whose body is to be spliced in. -/
def Inlines (t : Trace) (id : ValueId) : Prop :=
  ∃ method operands, t.get? id = some (.inlinedCall method operands)

/-- The value is a guard. -/
def Guards (t : Trace) (id : ValueId) : Prop :=
  ∃ kind comparator left right frame, t.get? id = some (.guard kind comparator left right frame)

/-- A trace without what cannot be lowered yet: calls to splice in, and guards before the loop. -/
structure Lowerable (t : Trace) : Prop where
  spliced : ∀ id ∈ t.stream, ¬ t.Inlines id
  prologue : ∀ id ∈ t.prologue, ¬ t.Guards id

section Streams

variable {t : Trace}

theorem Lowerable.spliced_body (h : t.Lowerable) : ∀ id ∈ t.body, ¬ t.Inlines id :=
  fun id hid => h.spliced id (List.mem_append_right _ hid)

theorem Lowerable.spliced_prologue (h : t.Lowerable) : ∀ id ∈ t.prologue, ¬ t.Inlines id :=
  fun id hid => h.spliced id (List.mem_append_left _ hid)

/-- The body as the part of the stream that is passed first. -/
theorem stream_eq_body : t.stream = t.prologue ++ t.body ++ [] := (List.append_nil _).symm

/-- The prologue as the part of the stream that is passed last. -/
theorem stream_eq_prologue : t.stream = [] ++ t.prologue ++ t.body := rfl

variable {pre passed : List ValueId}

/-- The last instructions of the body in the stream. -/
theorem stream_of_body (h : pre ++ passed = t.body) :
    t.stream = (t.prologue ++ pre) ++ passed ++ [] := by
  rw [stream, ← h, List.append_nil, List.append_assoc]

/-- The last instructions of the prologue in the stream. -/
theorem stream_of_prologue (h : pre ++ passed = t.prologue) :
    t.stream = pre ++ passed ++ t.body := by
  rw [stream, ← h]

end Streams

end Trace

namespace Job

variable (j : Job)

/-- The pool once an instruction's result and everything that it uses have their slots. -/
def taken (p : Pool) (id : ValueId) (v : Trace.Value) : Pool := j.useAllIn p (id :: v.uses)

/-- The code of an instruction that is no guard. -/
def plainCode (q : Pool) (id : ValueId) : Trace.Value → List Instruction
  | .operation op operands => [.operate (q.lookup id) op (operands.map (j.operand q))]
  | .call method operands frame =>
    [.call (q.lookup id) (.method method) (j.settings.abi.ofMethod method)
      (operands.map (j.operand q)) (frame.map (Frame.map (j.operand q)))]
  | _ => []

/-- The exit of a guard in front of `n` blocks. -/
def exitCode (q : Pool) (id : ValueId) (kind : Kind) (comparator : Comparator)
    (left right : ValueId) (frame : Option (Frame ValueId)) (n : Nat) : List Instruction :=
  (GuardExit.mk id kind comparator (j.operand q left) (j.operand q right)
    (frame.map (Frame.map (j.operand q)))).code j.tagSlot Layout.bailoutId ⟨n⟩

/-- The front after an instruction has been passed. -/
def pass (f : Front) (id : ValueId) : Front :=
  match j.trace.get? id with
  | some (.guard kind comparator left right frame) =>
    let q := j.taken f.pool id (.guard kind comparator left right frame)
    ⟨q, j.exitCode q id kind comparator left right frame (f.later.length + 1), f.code :: f.later⟩
  | some v =>
    if v.isLeaf then f
    else
      let q := j.taken f.pool id v
      ⟨q.leave id, j.plainCode q id v ++ f.code, f.later⟩
  | none => f

/-- The front after instructions have been passed, the last one first. -/
def passAll (f : Front) (ids : List ValueId) : Front := ids.foldr (fun id f => j.pass f id) f

/-- The walk has passed the instructions of `rest` and can go on with what stands before them. -/
structure Ready (rest : List ValueId) (p : Pool) : Prop where
  fits : j.Fits p
  released : ∀ v ∈ p.released, v ∈ rest ∧ ∃ val, j.trace.get? v = some val ∧ val.isLeaf = false
  pending : ∀ {v s}, p.lookup v = some s →
    (∃ val, j.trace.get? v = some val ∧ val.isLeaf = true) ∨ v ∈ j.trace.stream ∧ v ∉ rest

variable {j}

theorem pass_guard {f : Front} {id : ValueId} {kind : Kind} {comparator : Comparator}
    {left right : ValueId} {frame : Option (Frame ValueId)}
    (hv : j.trace.get? id = some (.guard kind comparator left right frame)) :
    j.pass f id = ⟨j.taken f.pool id (.guard kind comparator left right frame),
      j.exitCode (j.taken f.pool id (.guard kind comparator left right frame)) id kind comparator
        left right frame (f.later.length + 1), f.code :: f.later⟩ := by
  rw [pass, hv]

theorem pass_plain {f : Front} {id : ValueId} {v : Trace.Value} (hv : j.trace.get? id = some v)
    (hleaf : v.isLeaf = false) (hguard : ¬ j.trace.Guards id) :
    j.pass f id = ⟨(j.taken f.pool id v).leave id,
      j.plainCode (j.taken f.pool id v) id v ++ f.code, f.later⟩ := by
  rw [pass, hv]
  cases v with
  | guard kind comparator left right frame => exact absurd ⟨_, _, _, _, _, hv⟩ hguard
  | constant c => cases hleaf
  | atEntry n kind flags => cases hleaf
  | untracked => cases hleaf
  | _ => rfl

theorem passAll_cons (f : Front) (id : ValueId) (ids : List ValueId) :
    j.passAll f (id :: ids) = j.pass (j.passAll f ids) id := rfl

theorem passAll_append (f : Front) (ids ids' : List ValueId) :
    j.passAll f (ids ++ ids') = j.passAll (j.passAll f ids') ids := List.foldr_append

theorem Fits.leave {q : Pool} (hq : j.Fits q) (id : ValueId) : j.Fits (q.leave id) := by
  have h := Pool.leave_leaves hq.sound id
  refine ⟨h.sound, fun {u s} hu => hq.bound (s := s) ?_⟩
  rw [h.lookup] at hu
  split at hu
  · cases hu
  · exact hu

/-! ### Going on -/

section Ready

variable {pre rest : List ValueId} {id : ValueId} {v : Trace.Value} {p : Pool}

/-- What an instruction uses stands before it or is a leaf, so it has not been released. -/
theorem Ready.uses (h : j.Ready rest p) (hacc : j.trace.Accepted)
    (hs : j.trace.stream = pre ++ id :: rest) (hv : j.trace.get? id = some v) :
    ∀ u ∈ v.uses, j.trace.Carries u ∧ u ∉ p.released ∧
      u ≠ id ∧ ((∃ w, j.trace.get? u = some w ∧ w.isLeaf = true) ∨ u ∈ pre) := by
  intro u hu
  obtain ⟨v', hp⟩ := hacc.stream pre id rest hs
  obtain rfl : v = v' := Option.some.inj (hv.symm.trans hp.value)
  obtain ⟨w, hw, hvoid, hdef⟩ := hp.uses u hu
  have hnd := hacc.nodup_stream
  rw [hs, List.nodup_append] at hnd
  refine ⟨⟨w, hw, hvoid⟩, fun hr => ?_, fun he => ?_, hdef.imp (fun hl => ⟨w, hw, hl⟩)
    (fun hu => hu)⟩
  · obtain ⟨hrest, w', hw', hleaf⟩ := h.released u hr
    rcases hdef with hl | hpre
    · rw [← Option.some.inj (hw.symm.trans hw'), hl] at hleaf
      cases hleaf
    · exact hnd.2.2 u hpre u (List.mem_cons_of_mem _ hrest) rfl
  · rcases hdef with hl | hpre
    · subst he
      have hv' : v = w := Option.some.inj (hv.symm.trans hw)
      subst hv'
      cases v <;> simp_all [Trace.Value.uses, Trace.Value.operands, Trace.Value.frame?,
        Trace.Value.isLeaf]
    · exact hnd.2.2 u hpre id List.mem_cons_self he

theorem Ready.not_released (h : j.Ready rest p) (hacc : j.trace.Accepted)
    (hs : j.trace.stream = pre ++ id :: rest) : id ∉ p.released := by
  intro hr
  have hnd := hacc.nodup_stream
  rw [hs, List.nodup_append, List.nodup_cons] at hnd
  exact hnd.2.1.1 (h.released id hr).1

/-- Neither an instruction nor what it uses has been released. -/
theorem Ready.usable (h : j.Ready rest p) (hacc : j.trace.Accepted)
    (hs : j.trace.stream = pre ++ id :: rest) (hv : j.trace.get? id = some v) :
    ∀ u ∈ id :: v.uses, (∃ w, j.trace.get? u = some w) ∧ u ∉ p.released := by
  intro u hu
  rcases List.mem_cons.1 hu with rfl | hu
  · exact ⟨⟨v, hv⟩, h.not_released hacc hs⟩
  · obtain ⟨⟨w, hw, -⟩, hr, -⟩ := h.uses hacc hs hv u hu
    exact ⟨⟨w, hw⟩, hr⟩

theorem Ready.taken (h : j.Ready rest p) (hacc : j.trace.Accepted)
    (hs : j.trace.stream = pre ++ id :: rest) (hv : j.trace.get? id = some v) :
    j.Takes p (id :: v.uses) (j.taken p id v) :=
  useAllIn_takes h.fits (h.usable hacc hs hv)

/-- The walk stays ready at an instruction that is no leaf. -/
theorem Ready.leave (h : j.Ready rest p) (hacc : j.trace.Accepted)
    (hs : j.trace.stream = pre ++ id :: rest) (hv : j.trace.get? id = some v)
    (hleaf : v.isLeaf = false) : j.Ready (id :: rest) ((j.taken p id v).leave id) := by
  have ht := h.taken hacc hs hv
  have hl := Pool.leave_leaves ht.fits.sound id
  have hnd := hacc.nodup_stream
  rw [hs, List.nodup_append] at hnd
  refine ⟨ht.fits.leave id, fun u hu => ?_, fun {u s} hu => ?_⟩
  · rcases hl.released u hu with rfl | hu
    · exact ⟨List.mem_cons_self, v, hv, hleaf⟩
    · rw [ht.extension.released] at hu
      obtain ⟨hrest, hval⟩ := h.released u hu
      exact ⟨List.mem_cons_of_mem _ hrest, hval⟩
  · rw [hl.lookup] at hu
    split at hu
    · cases hu
    · next hne =>
      by_cases huse : u ∈ v.uses
      · obtain ⟨-, -, -, hdef⟩ := h.uses hacc hs hv u huse
        refine hdef.imp (fun hl => hl) fun hpre =>
          ⟨by rw [hs]; exact List.mem_append_left _ hpre, fun hm => ?_⟩
        exact hnd.2.2 u hpre u hm rfl
      · have hno : u ∉ id :: v.uses := by simp [hne, huse]
        rw [ht.others hno] at hu
        refine (h.pending hu).imp (fun hl => hl) fun ⟨hm, hr⟩ => ⟨hm, fun hmem => ?_⟩
        exact (List.mem_cons.1 hmem).elim hne hr

/-- Something that produces nothing is not bound, so leaving it changes nothing. -/
theorem leave_of_not_needsSlot {q : Pool} (hq : j.Fits q) (hv : j.trace.get? id = some v)
    (hn : v.needsSlot = false) : q.lookup id = none ∧ q.leave id = q := by
  have hl : q.lookup id = none := by
    cases hs : q.lookup id with
    | none => rfl
    | some s =>
      obtain ⟨w, hw, hn', -⟩ := hq.bound hs
      rw [← Option.some.inj (hv.symm.trans hw), hn] at hn'
      cases hn'
  exact ⟨hl, by rw [Pool.leave, Pool.release, hl]⟩

theorem pool_pass (h : j.Ready rest p) (hacc : j.trace.Accepted)
    (hs : j.trace.stream = pre ++ id :: rest) (hv : j.trace.get? id = some v)
    (hleaf : v.isLeaf = false) {f : Front} (hf : f.pool = p) :
    (j.pass f id).pool = (j.taken p id v).leave id := by
  subst hf
  rw [pass, hv]
  cases v with
  | guard kind comparator left right frame =>
    exact (leave_of_not_needsSlot (h.taken hacc hs hv).fits hv rfl).2.symm
  | constant c => cases hleaf
  | atEntry n kind flags => cases hleaf
  | untracked => cases hleaf
  | _ => rfl

theorem pass_of_isLeaf {f : Front} (hv : j.trace.get? id = some v) (hleaf : v.isLeaf = true) :
    j.pass f id = f := by
  rw [pass, hv]
  cases v <;> first | rfl | cases hleaf

theorem Ready.cons_of_isLeaf (h : j.Ready rest p) (hv : j.trace.get? id = some v)
    (hleaf : v.isLeaf = true) : j.Ready (id :: rest) p := by
  refine ⟨h.fits, fun u hu => ?_, fun {u s} hu => ?_⟩
  · obtain ⟨hrest, hval⟩ := h.released u hu
    exact ⟨List.mem_cons_of_mem _ hrest, hval⟩
  · by_cases hid : u = id
    · exact Or.inl ⟨v, hid ▸ hv, hleaf⟩
    · exact (h.pending hu).imp (fun hl => hl) fun ⟨hm, hr⟩ => ⟨hm, by simp [hid, hr]⟩

/-- The walk stays ready at every instruction. -/
theorem Ready.pass (hacc : j.trace.Accepted) (hs : j.trace.stream = pre ++ id :: rest) {f : Front}
    (h : j.Ready rest f.pool) : j.Ready (id :: rest) (j.pass f id).pool := by
  obtain ⟨v, hp⟩ := hacc.stream pre id rest hs
  cases hleaf : v.isLeaf with
  | true =>
    rw [pass_of_isLeaf hp.value hleaf]
    exact h.cons_of_isLeaf hp.value hleaf
  | false =>
    rw [pool_pass h hacc hs hp.value hleaf rfl]
    exact h.leave hacc hs hp.value hleaf

/-- The walk stays ready along a stream. -/
theorem Ready.passAll (hacc : j.trace.Accepted) {ids : List ValueId}
    (hs : j.trace.stream = pre ++ ids ++ rest) {f : Front} (h : j.Ready rest f.pool) :
    j.Ready (ids ++ rest) (j.passAll f ids).pool := by
  induction ids generalizing pre with
  | nil => exact h
  | cons id ids ih =>
    rw [passAll_cons]
    have hs₁ : j.trace.stream = pre ++ id :: (ids ++ rest) := by rw [hs]; simp
    have hs₂ : j.trace.stream = (pre ++ [id]) ++ ids ++ rest := by rw [hs]; simp
    exact Ready.pass hacc hs₁ (ih hs₂)

/-- Induction along a stream as the walk passes it: what holds at its end and is kept by every
instruction that the walk comes to holds at its beginning. -/
theorem passAll_induction (hacc : j.trace.Accepted) {ids : List ValueId}
    (hs : j.trace.stream = pre ++ ids ++ rest) {f : Front} (h : j.Ready rest f.pool)
    {P : List ValueId → Prop} (nil : P [])
    (cons : ∀ {a id passed}, ids = a ++ id :: passed →
      j.trace.stream = (pre ++ a) ++ id :: (passed ++ rest) →
      j.Ready (passed ++ rest) (j.passAll f passed).pool → P passed → P (id :: passed)) :
    P ids := by
  have haux : ∀ passed a, ids = a ++ passed → P passed := by
    intro passed
    induction passed with
    | nil => exact fun _ _ => nil
    | cons id passed ih =>
      intro a he
      have hs₁ : j.trace.stream = (pre ++ a) ++ id :: (passed ++ rest) := by rw [hs, he]; simp
      have hs₂ : j.trace.stream = (pre ++ a ++ [id]) ++ passed ++ rest := by rw [hs₁]; simp
      exact cons he hs₁ (h.passAll hacc hs₂) (ih (a ++ [id]) (by rw [he]; simp))
  exact haux ids [] rfl

end Ready

/-! ### The steps -/

section Steps

variable {pre rest : List ValueId} {id : ValueId} {v : Trace.Value} {f : Front}

theorem useFrame?_gives {f : Front} (hf : j.Fits f.pool) {frame : Option (Frame ValueId)}
    (h : ∀ u ∈ (frame.map Frame.contents).getD [], j.trace.Carries u ∧
      u ∉ f.pool.released) :
    (j.useFrame? frame).Gives f
      (frame.map (Frame.map (j.operand (j.useAllIn f.pool ((frame.map Frame.contents).getD [])))))
      (f.withPool (j.useAllIn f.pool ((frame.map Frame.contents).getD []))) := by
  cases frame with
  | none => exact .pure f none
  | some frame =>
    simp only [Option.map_some, Option.getD_some, Frame.contents, useAllIn_append] at h ⊢
    have h₁ : ∀ u ∈ frame.locals, j.trace.Carries u ∧
        u ∉ f.pool.released := fun u hu => h u (List.mem_append_left _ hu)
    have ht₁ := useAllIn_takes hf fun u hu => ⟨(h₁ u hu).1.value, (h₁ u hu).2⟩
    have h₂ : ∀ u ∈ frame.stack, j.trace.Carries u ∧
        u ∉ (j.useAllIn f.pool frame.locals).released := by
      rw [ht₁.extension.released]
      exact fun u hu => h u (List.mem_append_right _ hu)
    have ht₂ := useAllIn_takes ht₁.fits fun u hu => ⟨(h₂ u hu).1.value, (h₂ u hu).2⟩
    have hlocals : frame.locals.map (j.operand (j.useAllIn f.pool frame.locals)) =
        frame.locals.map (j.operand (j.useAllIn (j.useAllIn f.pool frame.locals) frame.stack)) := by
      exact List.map_congr_left fun u hu => (ht₁.operand_eq ht₂ hu (h₁ u hu).1).symm
    refine Walk.Step.Gives.bind (Walk.Step.Gives.bind (mapM_use_gives hf h₁) ?_) (.pure _ _)
    rw [hlocals]
    exact (mapM_use_gives (f := f.withPool _) ht₁.fits h₂).bind (.pure _ _)

/-- The slot for the result of an instruction, if it produces something. -/
theorem define_gives (h : j.Ready rest f.pool) (hacc : j.trace.Accepted)
    (hs : j.trace.stream = pre ++ id :: rest) (hv : j.trace.get? id = some v)
    (hleaf : v.isLeaf = false) :
    (j.define id v.kind).Gives f ((j.useIn f.pool id).lookup id)
    (f.withPool (j.useIn f.pool id)) := by
  have hrel := h.not_released hacc hs
  rw [define]
  by_cases hk : v.kind = .void
  · have hn : v.needsSlot = false := by
      cases hn : v.needsSlot with
      | false => rfl
      | true => exact absurd hk (Trace.Value.kind_ne_void_of_needsSlot hn)
    have hq : j.useIn f.pool id = f.pool := by rw [useIn, hv]; simp [hn]
    rw [if_pos hk, hq, (leave_of_not_needsSlot h.fits hv hn).1]
    exact .pure f none
  · obtain ⟨s, -, hgives, hl⟩ :=
      slotOf_gives h.fits hv (Trace.Value.needsSlot_of_not_isLeaf hleaf hk) hrel
    rw [if_neg hk, hl]
    exact hgives.bind (.pure _ _)

theorem endDefinition_gives {f : Front} (hf : j.Fits f.pool) (id : ValueId) :
    (Walk.endDefinition id (f.pool.lookup id)).Gives f () (f.withPool (f.pool.leave id)) := by
  rw [Walk.endDefinition, Pool.leave]
  cases hl : f.pool.lookup id with
  | none =>
    rw [Pool.release, hl]
    exact .pure f ()
  | some s =>
    obtain ⟨p, he, -⟩ := Pool.release_spec hf.sound hl
    rw [he]
    exact Walk.Step.release_gives id he

theorem lowerPlain_gives (h : j.Ready rest f.pool) (hacc : j.trace.Accepted)
    (hs : j.trace.stream = pre ++ id :: rest) (hv : j.trace.get? id = some v)
    (hinlined : ∀ method operands, v ≠ .inlinedCall method operands)
    (hguard : ∀ kind comparator left right frame, v ≠ .guard kind comparator left right frame) :
    (j.lowerPlain id v).Gives f () (j.pass f id) := by
  have huses := h.uses hacc hs hv
  have ht := h.taken hacc hs hv
  have hfirst := useIn_takes h.fits hv (h.not_released hacc hs)
  have huse : ∀ u ∈ v.uses, j.trace.Carries u ∧
      u ∉ (j.useIn f.pool id).released := by
    rw [hfirst.extension.released]
    exact fun u hu => ⟨(huses u hu).1, (huses u hu).2.1⟩
  have hresult : v.isLeaf = false → (j.taken f.pool id v).lookup id =
      (j.useIn f.pool id).lookup id := by
    intro hleaf
    refine (useAllIn_takes hfirst.fits fun u hu => ⟨(huse u hu).1.value, (huse u hu).2⟩).others ?_
    exact fun hid => (huses id hid).2.2.1 rfl
  rw [pass, hv]
  cases v with
  | operation op operands =>
    have hall : ∀ u ∈ operands, u ∈ (Trace.Value.operation op operands).uses := fun u hu => by
      simp [Trace.Value.uses, Trace.Value.operands, Trace.Value.frame?, hu]
    have hq : j.useAllIn (j.useIn f.pool id) operands =
        j.taken f.pool id (.operation op operands) := by
      simp [taken, Trace.Value.uses, Trace.Value.operands, Trace.Value.frame?, useAllIn_cons]
    refine (define_gives h hacc hs hv rfl).bind ?_
    refine (mapM_use_gives (f := f.withPool (j.useIn f.pool id)) hfirst.fits fun u hu =>
      huse u (hall u hu)).bind ?_
    rw [Front.pool_withPool, hq, ← hresult rfl]
    exact (Walk.Step.prepend_gives _ _).bind
      (endDefinition_gives (f := ⟨j.taken f.pool id (.operation op operands), _, f.later⟩)
      ht.fits id)
  | call method operands frame =>
    have hall : ∀ u ∈ operands, u ∈ (Trace.Value.call method operands frame).uses := fun u hu => by
      simp [Trace.Value.uses, Trace.Value.operands, hu]
    have hall' : ∀ u ∈ (frame.map Frame.contents).getD [],
        u ∈ (Trace.Value.call method operands frame).uses :=
      fun u hu => List.mem_append_right _ hu
    have hq : j.useAllIn (j.useAllIn (j.useIn f.pool id) operands)
        ((frame.map Frame.contents).getD []) = j.taken f.pool id (.call method operands frame) := by
      simp [taken, Trace.Value.uses, Trace.Value.operands, Trace.Value.frame?, useAllIn_cons,
        useAllIn_append]
    have ht₁ := useAllIn_takes hfirst.fits fun u hu =>
      ⟨(huse u (hall u hu)).1.value, (huse u (hall u hu)).2⟩
    have huse' : ∀ u ∈ (frame.map Frame.contents).getD [],
        j.trace.Carries u ∧
          u ∉ (j.useAllIn (j.useIn f.pool id) operands).released := by
      rw [ht₁.extension.released]
      exact fun u hu => huse u (hall' u hu)
    have ht₂ := useAllIn_takes ht₁.fits fun u hu => ⟨(huse' u hu).1.value, (huse' u hu).2⟩
    have hops : operands.map (j.operand (j.useAllIn (j.useIn f.pool id) operands)) =
        operands.map (j.operand (j.taken f.pool id (.call method operands frame))) := by
      rw [← hq]
      exact List.map_congr_left fun u hu => (ht₁.operand_eq ht₂ hu (huse u (hall u hu)).1).symm
    refine (define_gives h hacc hs hv rfl).bind ?_
    refine (mapM_use_gives (f := f.withPool (j.useIn f.pool id)) hfirst.fits fun u hu =>
      huse u (hall u hu)).bind ?_
    refine (useFrame?_gives (f := f.withPool (j.useAllIn (j.useIn f.pool id) operands)) ht₁.fits
      huse').bind ?_
    rw [Front.pool_withPool, Front.pool_withPool, hops, hq, ← hresult rfl]
    exact (Walk.Step.prepend_gives _ _).bind
      (endDefinition_gives (f := ⟨j.taken f.pool id (.call method operands frame), _, f.later⟩)
      ht.fits id)
  | guard kind comparator left right frame => exact absurd rfl (hguard _ _ _ _ _)
  | inlinedCall method operands => exact absurd rfl (hinlined _ _)
  | _ => exact .pure f ()

theorem lowerGuard_gives (h : j.Ready rest f.pool) (hacc : j.trace.Accepted)
    (hs : j.trace.stream = pre ++ id :: rest) {kind : Kind} {comparator : Comparator}
    {left right : ValueId} {frame : Option (Frame ValueId)}
    (hv : j.trace.get? id = some (.guard kind comparator left right frame)) :
    (j.lowerGuard id kind comparator left right frame).Gives f () (j.pass f id) := by
  have huses := h.uses hacc hs hv
  have huse : ∀ u ∈ (Trace.Value.guard kind comparator left right frame).uses,
      j.trace.Carries u ∧ u ∉ f.pool.released :=
    fun u hu => ⟨(huses u hu).1, (huses u hu).2.1⟩
  have hids : ∀ u ∈ [left, right], u ∈ (Trace.Value.guard kind comparator left right frame).uses :=
    fun u hu => List.mem_append_left _ hu
  have hframe : ∀ u ∈ (frame.map Frame.contents).getD [],
      u ∈ (Trace.Value.guard kind comparator left right frame).uses :=
      fun u hu => List.mem_append_right _ hu
  have ht : j.Takes f.pool [left, right] (j.useAllIn f.pool [left, right]) :=
    useAllIn_takes h.fits fun u hu => ⟨(huse u (hids u hu)).1.value, (huse u (hids u hu)).2⟩
  have hrel : ∀ u, u ∉ f.pool.released → u ∉ (j.useAllIn f.pool [left, right]).released :=
    fun u hu => by
    rwa [ht.extension.released]
  have htf := useAllIn_takes ht.fits fun u hu =>
    ⟨(huse u (hframe u hu)).1.value, hrel u (huse u (hframe u hu)).2⟩
  have hq : j.useAllIn (j.useAllIn f.pool [left, right]) ((frame.map Frame.contents).getD []) =
      j.taken f.pool id (.guard kind comparator left right frame) := by
    have hid : j.useIn f.pool id = f.pool := by rw [useIn, hv]; rfl
    have htaken : j.taken f.pool id (.guard kind comparator left right frame) =
        j.useAllIn (j.useIn f.pool id) ([left, right] ++ (frame.map Frame.contents).getD []) := rfl
    rw [htaken, hid, useAllIn_append]
  -- the two operands are used one after the other, which is the same as using both
  obtain ⟨⟨wl, hwl, hvl⟩, hrl⟩ := huse left (hids left (by simp))
  obtain ⟨⟨wr, hwr, hvr⟩, hrr⟩ := huse right (hids right (by simp))
  have hl := useIn_takes h.fits hwl hrl
  have hrr' : right ∉ (j.useIn f.pool left).released := by rwa [hl.extension.released]
  have hr := useIn_takes hl.fits hwr hrr'
  have hleft : j.operand (j.taken f.pool id (.guard kind comparator left right frame)) left =
      j.operand (j.useIn f.pool left) left := by
    rw [← hq]
    exact hl.operand_eq (hr.append htf) List.mem_cons_self ⟨wl, hwl, hvl⟩
  have hright : j.operand (j.taken f.pool id (.guard kind comparator left right frame)) right =
      j.operand (j.useIn (j.useIn f.pool left) right) right := by
    rw [← hq]
    exact hr.operand_eq htf List.mem_cons_self ⟨wr, hwr, hvr⟩
  refine .get fun w hw => ?_
  have hcurrent : w.current = ⟨f.later.length + 1⟩ := by rw [← hw]; rfl
  refine (use_gives h.fits hwl hvl hrl).bind ?_
  refine (use_gives (f := f.withPool (j.useIn f.pool left)) hl.fits hwr hvr hrr').bind ?_
  refine (useFrame?_gives (f := f.withPool (j.useAllIn f.pool [left, right])) ht.fits fun u hu =>
    ⟨(huse u (hframe u hu)).1, hrel u (huse u (hframe u hu)).2⟩).bind ?_
  refine (Walk.Step.openBlock_gives _).bind (.get fun w' _ => ?_)
  refine (Walk.Step.note_gives _ _).bind ((Walk.Step.note_gives _ _).bind ?_)
  rw [Front.pool_withPool, Front.pool_withPool, hq, ← hleft, ← hright, hcurrent, pass, hv]
  exact Walk.Step.prepend_gives _ _

theorem lowerBody_gives (h : j.Ready rest f.pool) (hacc : j.trace.Accepted)
    (hs : j.trace.stream = pre ++ id :: rest) (hid : ¬ j.trace.Inlines id) :
    (j.lowerBody id).Gives f () (j.pass f id) := by
  obtain ⟨v, hp⟩ := hacc.stream pre id rest hs
  refine (fetch_gives hp.value f).bind ?_
  have hinlined : ∀ method operands, v ≠ .inlinedCall method operands :=
    fun method operands he => hid ⟨method, operands, he ▸ hp.value⟩
  cases v with
  | guard kind comparator left right frame => exact lowerGuard_gives h hacc hs hp.value
  | _ => exact lowerPlain_gives h hacc hs hp.value hinlined (by simp)

theorem lowerPrologue_gives (h : j.Ready rest f.pool) (hacc : j.trace.Accepted)
    (hs : j.trace.stream = pre ++ id :: rest) (hid : ¬ j.trace.Inlines id)
    (hguard : ¬ j.trace.Guards id) : (j.lowerPrologue id).Gives f () (j.pass f id) := by
  obtain ⟨v, hp⟩ := hacc.stream pre id rest hs
  refine (fetch_gives hp.value f).bind ?_
  have hinlined : ∀ method operands, v ≠ .inlinedCall method operands :=
    fun method operands he => hid ⟨method, operands, he ▸ hp.value⟩
  cases v with
  | guard kind comparator left right frame => exact absurd ⟨_, _, _, _, _, hp.value⟩ hguard
  | _ => exact lowerPlain_gives h hacc hs hp.value hinlined (by simp)

/-- The faults of a trace that cannot be lowered yet. -/
def NotYet (e : Fault) : Prop := ∃ what, e = .unsupported what

theorem lowerBody_fails (f : Front) (hid : j.trace.Inlines id) :
    (j.lowerBody id).Fails f NotYet := by
  obtain ⟨method, operands, hv⟩ := hid
  exact (fetch_gives hv f).fails (.throw ⟨_, rfl⟩)

theorem lowerPrologue_fails (f : Front) (hid : j.trace.Inlines id ∨ j.trace.Guards id) :
    (j.lowerPrologue id).Fails f NotYet := by
  rcases hid with ⟨method, operands, hv⟩ | ⟨kind, comparator, left, right, frame, hv⟩
  · exact (fetch_gives hv f).fails (.throw ⟨_, rfl⟩)
  · exact (fetch_gives hv f).fails (.throw ⟨_, rfl⟩)

end Steps

/-! ### Streams -/

/-- A stream is passed, the last instruction first, if a step passes each of its instructions; if
there is one at which the step fails, going over the stream fails. -/
theorem forM_reverse_spec (hacc : j.trace.Accepted) {x : ValueId → Walk.Step Unit}
    {B : ValueId → Prop} {E : Fault → Prop}
    (hgives : ∀ {pre id rest} {f : Front}, j.trace.stream = pre ++ id :: rest →
      j.Ready rest f.pool → ¬ B id → (x id).Gives f () (j.pass f id))
    (hfails : ∀ {id} (f : Front), B id → (x id).Fails f E) {pre ids rest : List ValueId}
    (hs : j.trace.stream = pre ++ ids ++ rest) {f : Front} (h : j.Ready rest f.pool) :
    ((∀ id ∈ ids, ¬ B id) → (ids.reverse.forM x).Gives f () (j.passAll f ids)) ∧
      ((∃ id ∈ ids, B id) → (ids.reverse.forM x).Fails f E) := by
  refine passAll_induction hacc hs h
    (P := fun ids => ((∀ id ∈ ids, ¬ B id) → (ids.reverse.forM x).Gives f () (j.passAll f ids)) ∧
      ((∃ id ∈ ids, B id) → (ids.reverse.forM x).Fails f E))
    ⟨fun _ => .pure f (), fun ⟨id, hid, _⟩ => absurd hid List.not_mem_nil⟩ ?_
  intro _ id ids _ hs' hready ⟨ihg, ihf⟩
  have happend : (ids.reverse ++ [id]).forM x = (do ids.reverse.forM x; [id].forM x) :=
    List.forM_append
  rw [List.reverse_cons, happend]
  refine ⟨fun hgood => ?_, fun hbad => ?_⟩
  · refine (ihg fun u hu => hgood u (List.mem_cons_of_mem _ hu)).bind ?_
    exact (hgives hs' hready (hgood id List.mem_cons_self)).bind (.pure _ ())
  · by_cases hids : ∃ u ∈ ids, B u
    · exact (ihf hids).bind
    · have hid : B id := by
        obtain ⟨u, hu, hb⟩ := hbad
        rcases List.mem_cons.1 hu with rfl | hu
        · exact hb
        · exact absurd ⟨u, hu, hb⟩ hids
      exact (ihg fun u hu hb => hids ⟨u, hu, hb⟩).fails (hfails _ hid).bind

end Job

end LoopTrace
