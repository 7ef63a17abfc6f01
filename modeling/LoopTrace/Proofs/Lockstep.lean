import LoopTrace.Proofs.Custody
import LoopTrace.Proofs.Relabelling
import LoopTrace.Proofs.Retagging

/-!
# Lowerings in lockstep

Two traces of which one relabels the other are lowered in lockstep. The walks stand at each moment at the
same place: their pools bind corresponding values to the same slots, and the code that they have made is
the same, apart from the tags of guards (`Job.Mirrors`). A step of the one walk and the corresponding step
of the other are twins: from the same place they lead to the same place and come to the same, a fault
included (`Job.Twins`). Here are the rules by which twins are put together, and the steps of pools, code
and moves.
-/

namespace LoopTrace

/-! ### Faults under other names -/

/-- The refusal, told of another value. -/
def Pool.Misuse.relabel (s : ValueId → ValueId) : Misuse → Misuse
  | .readAfterRelease value => .readAfterRelease (s value)
  | .alreadyBound value => .alreadyBound (s value)
  | .slotTaken value slot => .slotTaken (s value) slot
  | .notBound value => .notBound (s value)
  | .stillBound slot => .stillBound slot
  | .recycledTwice slot => .recycledTwice slot

/-- What cannot be lowered, told of another value. -/
def Unsupported.relabel (s : ValueId → ValueId) : Unsupported → Unsupported
  | .inlining method => .inlining method
  | .prologueGuard site => .prologueGuard (s site)

/-- The broken invariant, told of other values. -/
def Breach.relabel (s : ValueId → ValueId) : Breach → Breach
  | .pool why => .pool (why.relabel s)
  | .noValue value => .noValue (s value)
  | .noSlot value => .noSlot (s value)
  | .entryNotLocal value => .entryNotLocal (s value)
  | why => why

/-- The fault, told of other values. A trace that has been accepted is not found malformed, so that there
is nothing to tell of that. -/
def Fault.relabel (s : ValueId → ValueId) : Fault → Fault
  | .invalidTrace why => .invalidTrace why
  | .unsupported what => .unsupported (what.relabel s)
  | .breach why => .breach (why.relabel s)

/-! ### Pools under other names -/

namespace Pool

/-- The pool with other names for the values that it binds or has released. -/
def relabel (s : ValueId → ValueId) (p : Pool) : Pool :=
  { p with
    bindings := p.bindings.map fun binding => (s binding.1, binding.2)
    released := p.released.map s }

/-- The pool knows of values of the trace only, and the slot for the tag is not one of its slots. -/
structure Tame (t : Trace) (tagSlot : Slot) (p : Pool) : Prop where
  bound : ∀ binding ∈ p.bindings, t.Holds binding.1
  released : ∀ u ∈ p.released, t.Holds u
  tag : p.Reserved tagSlot

section Tame

variable {t : Trace} {tagSlot : Slot} {p : Pool}

theorem Tame.allocate (hp : p.Tame t tagSlot) (kind : Kind) (mode : Mode) :
    (p.allocate kind mode).2.Tame t tagSlot ∧ (p.allocate kind mode).1 ≠ tagSlot := by
  obtain ⟨htag, hne⟩ := hp.tag.allocate rfl
  refine ⟨⟨?_, ?_, htag⟩, hne.symm⟩
  · rw [bindings_allocate]
    exact hp.bound
  · rw [released_allocate]
    exact hp.released

theorem Tame.bind (hp : p.Tame t tagSlot) {v : ValueId} {slot : Slot} {q : Pool} (hv : t.Holds v)
    (hne : slot ≠ tagSlot) (hb : p.bind v slot = .ok q) : q.Tame t tagSlot := by
  obtain ⟨-, rfl⟩ := bind_eq_ok hb
  refine ⟨fun binding hmem => ?_, hp.released, ⟨fun hmem => ?_, hp.tag.free, hp.tag.minted⟩⟩
  · rcases List.mem_cons.1 hmem with rfl | hmem
    · exact hv
    · exact hp.bound _ hmem
  · exact (List.mem_cons.1 hmem).elim hne.symm hp.tag.bound

theorem Tame.allocateFor (hp : p.Tame t tagSlot) {v : ValueId} (hv : t.Holds v) (kind : Kind)
    (mode : Mode) : (p.allocateFor v kind mode).2.Tame t tagSlot ∧
      ∀ slot, (p.allocateFor v kind mode).1 = .ok slot → slot ≠ tagSlot := by
  rw [Pool.allocateFor]
  cases hl : p.lookup v with
  | some slot =>
    refine ⟨hp, fun slot' he => ?_⟩
    rintro rfl
    obtain rfl := Except.ok.inj he
    exact hp.tag.bound (mem_bound_of_lookup hl)
  | none =>
    obtain ⟨ht, hne⟩ := hp.allocate kind mode
    dsimp only
    split
    · next q hb => exact ⟨ht.bind hv hne hb, fun slot he => Except.ok.inj he ▸ hne⟩
    · exact ⟨ht, fun slot he => by cases he⟩

theorem Tame.release (hp : p.Tame t tagSlot) {v : ValueId} (hv : t.Holds v) {slot : Slot} {q : Pool}
    (hr : p.release v = .ok (slot, q)) : q.Tame t tagSlot := by
  rw [Pool.release] at hr
  split at hr
  · next slot' hl =>
    obtain ⟨rfl, rfl⟩ := Prod.mk.inj (Except.ok.inj hr)
    have hne : tagSlot ≠ slot' := by
      rintro rfl
      exact hp.tag.bound (mem_bound_of_lookup hl)
    refine ⟨fun binding hmem => hp.bound _ (List.mem_filter.1 hmem).1, fun u hu => ?_,
      ⟨fun hmem => ?_, fun hmem => ?_, hp.tag.minted⟩⟩
    · rcases List.mem_cons.1 hu with rfl | hu
      · exact hv
      · exact hp.released u hu
    · exact hp.tag.bound ((List.filter_sublist.map _).subset hmem)
    · exact (List.mem_cons.1 hmem).elim hne hp.tag.free
  · cases hr

theorem Tame.recycle (hp : p.Tame t tagSlot) {slot : Slot} (hne : slot ≠ tagSlot) {q : Pool}
    (hr : p.recycle slot = .ok q) : q.Tame t tagSlot := by
  obtain ⟨-, rfl⟩ := recycle_eq_ok hr
  exact ⟨hp.bound, hp.released, ⟨hp.tag.bound, fun hmem =>
    (List.mem_cons.1 hmem).elim hne.symm hp.tag.free, hp.tag.minted⟩⟩

end Tame

section Relabel

variable {t t' : Trace} {s : ValueId → ValueId} (h : t.Relabels s t') {tagSlot : Slot} {p : Pool}

theorem bound_relabel : (p.relabel s).bound = p.bound := by
  rw [bound, bound, relabel, List.map_map]
  rfl

theorem allocate_relabel (kind : Kind) (mode : Mode) : (p.relabel s).allocate kind mode =
    ((p.allocate kind mode).1, (p.allocate kind mode).2.relabel s) := by
  have hr : (p.relabel s).reusable? kind mode = p.reusable? kind mode := rfl
  rw [allocate, allocate, hr]
  cases p.reusable? kind mode <;> rfl

theorem recycle_relabel (slot : Slot) : (p.relabel s).recycle slot =
    ((p.recycle slot).map (relabel s)).mapError (Misuse.relabel s) := by
  have hf : (p.relabel s).free = p.free := rfl
  rw [recycle, recycle, bound_relabel, hf]
  split_ifs <;> rfl

include h

theorem lookup_relabel (hp : p.Tame t tagSlot) {v : ValueId} (hv : t.Holds v) :
    (p.relabel s).lookup (s v) = p.lookup v := by
  have hl := lookup_map (l := p.bindings) s (fun slot => slot) fun binding hb he =>
    h.injective (hp.bound binding hb) hv he
  rwa [Option.map_id'] at hl

theorem bind_relabel (hp : p.Tame t tagSlot) {v : ValueId} (hv : t.Holds v) (slot : Slot) :
    (p.relabel s).bind (s v) slot =
      ((p.bind v slot).map (relabel s)).mapError (Misuse.relabel s) := by
  have hreleased : s v ∈ (p.relabel s).released ↔ v ∈ p.released := h.mem_map_iff hp.released hv
  rw [bind, bind, lookup_relabel h hp hv, bound_relabel]
  simp only [hreleased]
  split_ifs <;> rfl

theorem allocateFor_relabel (hp : p.Tame t tagSlot) {v : ValueId} (hv : t.Holds v) (kind : Kind)
    (mode : Mode) : (p.relabel s).allocateFor (s v) kind mode =
      ((p.allocateFor v kind mode).1.mapError (Misuse.relabel s),
        (p.allocateFor v kind mode).2.relabel s) := by
  rw [allocateFor, allocateFor, lookup_relabel h hp hv]
  cases p.lookup v with
  | some slot => rfl
  | none =>
    simp only [allocate_relabel, bind_relabel h (hp.allocate kind mode).1 hv]
    cases (p.allocate kind mode).2.bind v (p.allocate kind mode).1 <;> rfl

theorem release_relabel (hp : p.Tame t tagSlot) {v : ValueId} (hv : t.Holds v) :
    (p.relabel s).release (s v) =
      ((p.release v).map fun r => (r.1, r.2.relabel s)).mapError (Misuse.relabel s) := by
  have hfilter : (p.relabel s).bindings.filter (·.1 ≠ s v) =
      (p.bindings.filter (·.1 ≠ v)).map fun binding => (s binding.1, binding.2) := by
    rw [relabel, List.filter_map]
    refine congrArg _ (List.filter_congr fun binding hb => ?_)
    have hiff : s binding.1 = s v ↔ binding.1 = v :=
      ⟨h.injective (hp.bound binding hb) hv, congrArg s⟩
    simp [hiff]
  rw [release, release, lookup_relabel h hp hv, hfilter]
  cases p.lookup v <;> rfl

end Relabel

end Pool

/-! ### Steps in lockstep -/

namespace Job

open Walk Walk.Step

variable {α β γ δ : Type} {s : ValueId → ValueId}

/-- The lowering `j'` is that of a trace which relabels the one that `j` lowers. -/
structure Relabels (j : Job) (s : ValueId → ValueId) (j' : Job) : Prop where
  trace : j.trace.Relabels s j'.trace
  settings : j'.settings = j.settings
  tagSlot : j'.tagSlot = j.tagSlot
  mode : ∀ {id}, j.trace.Holds id → j'.mode (s id) = j.mode id
  writes : j'.trace.writes = j.trace.writes.map (Trace.Write.relabel s)

/-- The walks stand at the same place. -/
structure Mirrors (j : Job) (s : ValueId → ValueId) (w w' : Walk) : Prop where
  tame : w.pool.Tame j.trace j.tagSlot
  pool : w'.pool = w.pool.relabel s
  code : w'.code = w.code.map (Instruction.retag j.tagSlot s)
  later : w'.later = w.later.map (List.map (Instruction.retag j.tagSlot s))

/-- From the same place, the two steps lead to the same place, and have the same result, which has the
property `P`, or the same fault. -/
def Twins (j : Job) (s : ValueId → ValueId) (P : α → Prop) (x x' : Step α) : Prop :=
  ∀ w w', j.Mirrors s w w' → j.Mirrors s (x.run.run w).2 (x'.run.run w').2 ∧
    (x'.run.run w').1 = (x.run.run w).1.mapError (Fault.relabel s) ∧
    ∀ a, (x.run.run w).1 = .ok a → P a

/-- Nothing is said of the result. -/
abbrev anything : α → Prop := fun _ => True

namespace Twins

variable {j : Job} {P : α → Prop} {Q : β → Prop}

theorem pure {a : α} (ha : P a) : j.Twins s P (Pure.pure a) (Pure.pure a) :=
  fun _ _ hm => ⟨hm, rfl, fun _ he => Except.ok.inj he ▸ ha⟩

theorem throw (e : Fault) :
    j.Twins s P (MonadExcept.throw e) (MonadExcept.throw (e.relabel s)) :=
  fun _ _ hm => ⟨hm, rfl, fun _ he => nomatch he⟩

theorem bind {x x' : Step α} {k k' : α → Step β} (hx : j.Twins s P x x')
    (hk : ∀ a, P a → j.Twins s Q (k a) (k' a)) : j.Twins s Q (x >>= k) (x' >>= k') := by
  intro w w' hm
  obtain ⟨hm₁, hr, hp⟩ := hx w w' hm
  rw [run_bind, run_bind]
  rcases hrun : x.run.run w with ⟨e | a, w₁⟩ <;> rcases hrun' : x'.run.run w' with ⟨r', w₁'⟩ <;>
    rw [hrun, hrun'] at hm₁ hr <;> rw [hrun] at hp <;> obtain rfl := hr
  · exact ⟨hm₁, rfl, fun _ he => nomatch he⟩
  · exact hk a (hp a rfl) w₁ w₁' hm₁

theorem mono {R : α → Prop} {x x' : Step α} (hx : j.Twins s P x x') (h : ∀ a, P a → R a) :
    j.Twins s R x x' := fun w w' hm =>
  let ⟨hm', hr, hp⟩ := hx w w' hm
  ⟨hm', hr, fun a ha => h a (hp a ha)⟩

/-- Steps that look at the walks. -/
theorem get {k k' : Walk → Step β} (h : ∀ w w', j.Mirrors s w w' → j.Twins s Q (k w) (k' w')) :
    j.Twins s Q (MonadState.get >>= k) (MonadState.get >>= k') :=
  fun w w' hm => h w w' hm w w' hm

theorem mapM {k : γ → Step α} {k' : δ → Step α} {f : γ → δ} {cs : List γ}
    (hk : ∀ c ∈ cs, j.Twins s P (k c) (k' (f c))) :
    j.Twins s (fun as => ∀ a ∈ as, P a) (cs.mapM k) ((cs.map f).mapM k') := by
  induction cs with
  | nil =>
    rw [List.map_nil, List.mapM_nil, List.mapM_nil]
    exact .pure fun _ ha => absurd ha List.not_mem_nil
  | cons c cs ih =>
    rw [List.map_cons, List.mapM_cons, List.mapM_cons]
    refine (hk c List.mem_cons_self).bind fun a ha => ?_
    exact (ih fun c hc => hk c (List.mem_cons_of_mem _ hc)).bind fun as has =>
      .pure (List.forall_mem_cons.2 ⟨ha, has⟩)

theorem forM {k : γ → Step Unit} {k' : δ → Step Unit} {f : γ → δ} {cs : List γ}
    (hk : ∀ c ∈ cs, j.Twins s anything (k c) (k' (f c))) :
    j.Twins s anything (cs.forM k) ((cs.map f).forM k') := by
  induction cs with
  | nil => exact .pure trivial
  | cons c cs ih =>
    exact (hk c List.mem_cons_self).bind fun _ _ => ih fun c hc => hk c (List.mem_cons_of_mem _ hc)

/-- Lists of what has no names are the same on both sides. -/
theorem forM_same {k k' : γ → Step Unit} {cs : List γ}
    (hk : ∀ c ∈ cs, j.Twins s anything (k c) (k' c)) :
    j.Twins s anything (cs.forM k) (cs.forM k') := by
  have h : j.Twins s anything (cs.forM k) ((cs.map id).forM k') := .forM hk
  rwa [List.map_id] at h

end Twins

/-! ### The steps that work on the front -/

section Steps

variable {j : Job}

/-- The journals need not agree. -/
theorem note_twins (e e' : Event) : j.Twins s anything (note e) (note e') :=
  fun _ _ hm => ⟨⟨hm.tame, hm.pool, hm.code, hm.later⟩, rfl, fun _ _ => trivial⟩

theorem enter_twins (phase : Phase) : j.Twins s anything (enter phase) (enter phase) :=
  fun _ _ hm => ⟨⟨hm.tame, hm.pool, hm.code, hm.later⟩, rfl, fun _ _ => trivial⟩

theorem prepend_twins {code code' : List Instruction}
    (hcode : code' = code.map (Instruction.retag j.tagSlot s)) :
    j.Twins s anything (prepend code) (prepend code') := by
  refine fun w w' hm => ⟨⟨hm.tame, hm.pool, ?_, hm.later⟩, rfl, fun _ _ => trivial⟩
  show code' ++ w'.code = (code ++ w.code).map _
  rw [hcode, hm.code, List.map_append]

theorem openBlock_twins : j.Twins s anything openBlock openBlock := by
  refine fun w w' hm => ⟨⟨hm.tame, hm.pool, rfl, ?_⟩, rfl, fun _ _ => trivial⟩
  show w'.code :: w'.later = (w.code :: w.later).map _
  rw [hm.code, hm.later, List.map_cons]

theorem allocate_twins (kind : Kind) (mode : Pool.Mode) :
    j.Twins s (· ≠ j.tagSlot) (allocate kind mode) (allocate kind mode) := by
  intro w w' hm
  obtain ⟨ht, hne⟩ := hm.tame.allocate kind mode
  rw [run_allocate, run_allocate, hm.pool, Pool.allocate_relabel]
  exact ⟨⟨ht, rfl, hm.code, hm.later⟩, rfl, fun a he => Except.ok.inj he ▸ hne⟩

theorem recycle_twins {slot : Slot} (hne : slot ≠ j.tagSlot) :
    j.Twins s anything (recycle slot) (recycle slot) := by
  intro w w' hm
  have hrun' : w'.pool.recycle slot = _ := hm.pool ▸ Pool.recycle_relabel slot
  cases hr : w.pool.recycle slot with
  | ok q =>
    rw [hr] at hrun'
    rw [run_recycle hr, run_recycle hrun']
    exact ⟨⟨hm.tame.recycle hne hr, rfl, hm.code, hm.later⟩, rfl, fun _ _ => trivial⟩
  | error e =>
    rw [hr] at hrun'
    rw [run_recycle_error hr, run_recycle_error hrun']
    exact ⟨hm, rfl, fun _ he => by cases he⟩

section Values

variable {j' : Job} (h : j.Relabels s j')

include h

theorem allocateFor_twins {v : ValueId} (hv : j.trace.Holds v) (kind : Kind) (mode : Pool.Mode) :
    j.Twins s (· ≠ j.tagSlot) (allocateFor v kind mode) (allocateFor (s v) kind mode) := by
  intro w w' hm
  obtain ⟨ht, hne⟩ := hm.tame.allocateFor hv kind mode
  rw [run_allocateFor, run_allocateFor, hm.pool, Pool.allocateFor_relabel h.trace hm.tame hv]
  refine ⟨⟨ht, rfl, hm.code, hm.later⟩, ?_, fun a he => ?_⟩
  · cases (w.pool.allocateFor v kind mode).1 <;> rfl
  · cases ha : (w.pool.allocateFor v kind mode).1 with
    | ok slot =>
      rw [ha] at he
      exact Except.ok.inj he ▸ hne slot ha
    | error e =>
      rw [ha] at he
      cases he

theorem release_twins {v : ValueId} (hv : j.trace.Holds v) :
    j.Twins s anything (release v) (release (s v)) := by
  intro w w' hm
  have hrun' : w'.pool.release (s v) = _ :=
    hm.pool ▸ Pool.release_relabel h.trace hm.tame hv
  rcases hr : w.pool.release v with e | ⟨slot, q⟩ <;> rw [hr] at hrun'
  · rw [run_release_error hr, run_release_error hrun']
    exact ⟨⟨hm.tame, hm.pool, hm.code, hm.later⟩, rfl, fun _ he => by cases he⟩
  · rw [run_release hr, run_release hrun']
    exact ⟨⟨hm.tame.release hv hr, rfl, hm.code, hm.later⟩, rfl, fun _ _ => trivial⟩

theorem endDefinition_twins {v : ValueId} (hv : j.trace.Holds v) (result : Option Slot) :
    j.Twins s anything (endDefinition v result) (endDefinition (s v) result) := by
  rw [endDefinition, endDefinition]
  split
  · exact release_twins h hv
  · exact .pure trivial

end Values

/-- Moves are ordered in the same way, and none of the steps writes the slot for the tag. -/
theorem order_twins (limit : Nat) {pending : List Move}
    (hpending : ∀ m ∈ pending, m.destination ≠ j.tagSlot) :
    j.Twins s (fun steps => ∀ step ∈ steps, (Move.Step.move step).destination ≠ j.tagSlot)
      (Move.order (fun kind => allocate kind .shared) (fun step => note (.moved step)) limit pending)
      (Move.order (fun kind => allocate kind .shared) (fun step => note (.moved step)) limit
        pending) := by
  induction limit generalizing pending with
  | zero => exact .pure fun _ hstep => absurd hstep List.not_mem_nil
  | succ limit ih =>
    cases pending with
    | nil => exact .pure fun _ hstep => absurd hstep List.not_mem_nil
    | cons first rest =>
      rw [Move.order]
      split
      · next ready others ht =>
        obtain ⟨-, a, b, he, rfl⟩ := Move.takeReady_eq_some ht
        rw [he] at hpending
        refine (note_twins _ _).bind fun _ _ =>
          (ih fun m hm => hpending m ((Move.sublist_middle a b ready).subset hm)).bind fun steps hsteps =>
            .pure (List.forall_mem_cons.2 ⟨hpending ready (by simp), hsteps⟩)
      · refine (allocate_twins _ _).bind fun temporary htemporary => (note_twins _ _).bind fun _ _ =>
          (ih fun m' hm' => ?_).bind fun steps hsteps =>
            .pure (List.forall_mem_cons.2 ⟨htemporary, hsteps⟩)
        obtain ⟨m, hm, hd, -⟩ := Move.mem_redirect.1 hm'
        exact hd ▸ hpending m hm

end Steps

end Job

end LoopTrace
