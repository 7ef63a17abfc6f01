import LoopTrace.Pool.Request
import LoopTrace.Proofs.Pool
import Mathlib.Data.Finset.Card
import Mathlib.Data.Finset.Dedup

/-!
# Who holds a slot, whatever is asked

A caller may bind and give back any slot at all: one that was never handed out, one that is to be handed
out again, one that holds another value. Then pools can come to hold a slot twice, and a slot can be to be
handed out while it is bound. What does not depend on the caller is who holds a slot.

One call does one of three things to the bindings (`turn_answer`): it leaves them, it gives a slot that
no value has to a value that has none and was never released, or it ends one binding by releasing its
value. From this alone it follows, for every run of calls, that no slot has two values, that a binding
stays until its own value is released, and that a released value never has a slot again
(`run_guarded`).

A pool reads off its bindings which slots are taken. `Warded` is a pool that keeps them in a set of its
own instead, and asks that set. The two answer alike in every run (`Warded.run_of`).
-/

namespace LoopTrace.Pool

/-! ### What one call does to the bindings -/

/-- What a call may do to the bindings. -/
inductive Turn (p q : Pool) (request : Request) : Prop where
  /-- They stay as they are. -/
  | stays (bindings : q.bindings = p.bindings) (released : q.released = p.released)
  /-- A value gets a slot. -/
  | binds (v : ValueId) (s : Slot) (fresh : v ∉ p.released) (unbound : p.lookup v = none)
    (untaken : s ∉ p.bound) (bindings : q.bindings = (v, s) :: p.bindings)
    (released : q.released = p.released)
  /-- A value loses its slot for good. -/
  | releases (v : ValueId) (s : Slot) (asked : request = .release v) (bound : p.lookup v = some s)
    (bindings : q.bindings = p.bindings.filter (·.1 ≠ v)) (released : q.released = v :: p.released)

/-- A value is bound under three conditions, and each of them has its refusal. -/
theorem turn_bind {p q : Pool} {v : ValueId} {s : Slot} (h : p.bind v s = .ok q)
    (request : Request) : p.Turn q request := by
  rw [bind] at h
  split_ifs at h with hv hl hs
  obtain rfl := Except.ok.inj h
  exact .binds v s hv (by simpa using hl) hs rfl rfl

/-- What stands before a change and leaves the bindings does not count. -/
theorem Turn.of_eq {p p' q : Pool} {request : Request} (hb : p'.bindings = p.bindings)
    (hr : p'.released = p.released) (h : p'.Turn q request) : p.Turn q request := by
  have hl : ∀ v, p'.lookup v = p.lookup v := fun v => by rw [lookup, lookup, hb]
  cases h with
  | stays hb' hr' => exact .stays (hb'.trans hb) (hr'.trans hr)
  | binds v s hv hu hs hb' hr' =>
    refine .binds v s (hr ▸ hv) (hl v ▸ hu) (fun hs' => hs ?_) (hb ▸ hb') (hr'.trans hr)
    rwa [bound, hb]
  | releases v s hasked hv hb' hr' => exact .releases v s hasked (hl v ▸ hv) (hb ▸ hb') (hr ▸ hr')

theorem turn_allocateFor (p : Pool) (v : ValueId) (kind : Kind) (mode : Mode) (request : Request) :
    p.Turn (p.allocateFor v kind mode).2 request := by
  have hb := bindings_allocate p kind mode
  have hr := released_allocate p kind mode
  rw [allocateFor]
  cases hl : p.lookup v with
  | some s => exact .stays rfl rfl
  | none =>
    cases hbind : (p.allocate kind mode).2.bind v (p.allocate kind mode).1 with
    | error e => simpa only [hbind] using .stays hb hr
    | ok q => simpa only [hbind] using .of_eq hb hr (turn_bind hbind request)

theorem turn_release {p q : Pool} {v : ValueId} {s : Slot} (h : p.release v = .ok (s, q)) :
    p.Turn q (.release v) := by
  rw [release] at h
  cases hl : p.lookup v with
  | none => simp [hl] at h
  | some s' =>
    rw [hl] at h
    obtain ⟨rfl, rfl⟩ := Prod.mk.inj (Except.ok.inj h)
    exact .releases v s' rfl hl rfl rfl

theorem turn_answer (p : Pool) (request : Request) : p.Turn (p.answer request).2 request := by
  cases request with
  | allocate kind mode => exact .stays (bindings_allocate ..) (released_allocate ..)
  | bind v s =>
    rw [answer]
    cases h : p.bind v s with
    | error e => exact .stays rfl rfl
    | ok q => exact turn_bind h _
  | lookup v =>
    rw [answer]
    cases p.lookup v <;> exact .stays rfl rfl
  | allocateFor v kind mode =>
    have h := turn_allocateFor p v kind mode (.allocateFor v kind mode)
    rw [answer]
    rcases he : p.allocateFor v kind mode with ⟨e | s, q⟩ <;> rw [he] at h <;> exact h
  | release v =>
    rw [answer]
    cases h : p.release v with
    | error e => exact .stays rfl rfl
    | ok r => exact turn_release h
  | recycle s =>
    rw [answer, recycle]
    split_ifs <;> exact .stays rfl rfl

/-! ### What every run keeps -/

/-- The bindings are a table from values to slots and from slots to values, without released values. -/
structure Exclusive (p : Pool) : Prop where
  /-- No value has two slots. -/
  keys : (p.bindings.map Prod.fst).Nodup
  /-- No slot holds two values. -/
  slots : p.bound.Nodup
  released : ∀ v ∈ p.released, p.lookup v = none

variable {p q : Pool} {request : Request}

theorem exclusive_new (reuse : Bool) : ({ reuse } : Pool).Exclusive :=
  ⟨List.nodup_nil, List.nodup_nil, by simp⟩

theorem Turn.exclusive (h : p.Turn q request) (hp : p.Exclusive) : q.Exclusive := by
  cases h with
  | stays hb hr =>
    refine ⟨hb ▸ hp.keys, by rw [bound, hb]; exact hp.slots, fun v hv => ?_⟩
    rw [lookup, hb]
    exact hp.released v (hr ▸ hv)
  | binds v s hv hl hs hb hr =>
    refine ⟨?_, ?_, fun u hu => ?_⟩
    · rw [hb, List.map_cons, List.nodup_cons]
      refine ⟨fun hm => ?_, hp.keys⟩
      obtain ⟨⟨v', s'⟩, hm', rfl⟩ := List.mem_map.1 hm
      exact Option.some_ne_none s' ((lookup_of_mem hp.keys hm').symm.trans hl)
    · rw [bound, hb]
      exact List.nodup_cons.2 ⟨hs, hp.slots⟩
    · rw [hr] at hu
      have hne : u ≠ v := fun e => hv (e ▸ hu)
      rw [lookup, hb, lookup_cons_eq, if_neg hne]
      exact hp.released u hu
  | releases v s _ hl hb hr =>
    refine ⟨?_, ?_, fun u hu => ?_⟩
    · rw [hb]
      exact hp.keys.sublist (List.filter_sublist.map _)
    · rw [bound, hb]
      exact hp.slots.sublist (List.filter_sublist.map _)
    · rw [lookup, hb, lookup_filter_ne]
      split_ifs with hu'
      · rfl
      · rw [hr] at hu
        exact hp.released u ((List.mem_cons.1 hu).resolve_left hu')

/-- A binding stays unless its own value is released. -/
theorem Turn.lookup (h : p.Turn q request) {v : ValueId} {s : Slot} (hv : p.lookup v = some s)
    (hne : request ≠ .release v) : q.lookup v = some s := by
  cases h with
  | stays hb _ => rwa [Pool.lookup, hb]
  | binds u x _ hl _ hb _ =>
    have hu : v ≠ u := by
      rintro rfl
      rw [hl] at hv
      cases hv
    rw [Pool.lookup, hb, lookup_cons_eq, if_neg hu]
    exact hv
  | releases u x hasked _ hb _ =>
    have hu : v ≠ u := by
      rintro rfl
      exact hne hasked
    rw [Pool.lookup, hb, lookup_filter_ne, if_neg hu]
    exact hv

/-- A value that has been released is so for good. -/
theorem Turn.mem_released (h : p.Turn q request) {v : ValueId} (hv : v ∈ p.released) :
    v ∈ q.released := by
  cases h with
  | stays _ hr => rwa [hr]
  | binds _ _ _ _ _ _ hr => rwa [hr]
  | releases _ _ _ _ _ hr => exact hr ▸ List.mem_cons_of_mem _ hv

/-- What every call keeps, every run keeps. -/
theorem run_induction {P : Pool → Prop} {requests : List Request}
    (hstep : ∀ request ∈ requests, ∀ q, P q → P (q.answer request).2) (hp : P p) :
    P (p.run requests).2 := by
  induction requests generalizing p with
  | nil => exact hp
  | cons request rest ih =>
    exact ih (fun r hr => hstep r (List.mem_cons_of_mem _ hr))
      (hstep request List.mem_cons_self p hp)

theorem Exclusive.run (hp : p.Exclusive) (requests : List Request) : (p.run requests).2.Exclusive :=
  run_induction (fun r _ q => (turn_answer q r).exclusive) hp

theorem lookup_run {v : ValueId} {s : Slot} {requests : List Request}
    (hne : .release v ∉ requests) (hv : p.lookup v = some s) :
    (p.run requests).2.lookup v = some s :=
  run_induction (P := fun q => q.lookup v = some s)
    (fun r hr q hq => (turn_answer q r).lookup hq fun e => hne (e ▸ hr)) hv

theorem mem_released_run {v : ValueId} (hv : v ∈ p.released) (requests : List Request) :
    v ∈ (p.run requests).2.released :=
  run_induction (P := fun q => v ∈ q.released) (fun r _ q => (turn_answer q r).mem_released) hv

namespace Exclusive

/-- A slot is taken exactly if some value has it. -/
theorem mem_bound_iff (hp : p.Exclusive) {s : Slot} : s ∈ p.bound ↔ ∃ v, p.lookup v = some s := by
  constructor
  · intro hs
    obtain ⟨⟨v, s'⟩, hm, rfl⟩ := List.mem_map.1 hs
    exact ⟨v, lookup_of_mem hp.keys hm⟩
  · rintro ⟨v, hv⟩
    exact mem_bound_of_lookup hv

theorem eq_of_lookup (hp : p.Exclusive) {v v' : ValueId} {s : Slot} (hv : p.lookup v = some s)
    (hv' : p.lookup v' = some s) : v = v' :=
  (Prod.mk.inj (List.inj_on_of_nodup_map hp.slots (mem_of_lookup hv) (mem_of_lookup hv') rfl)).1

/-- Without the binding of one value, its slot and no other is free to be taken. -/
theorem toFinset_filter (hp : p.Exclusive) {v : ValueId} {s : Slot} (hv : p.lookup v = some s) :
    ((p.bindings.filter (·.1 ≠ v)).map Prod.snd).toFinset = p.bound.toFinset.erase s := by
  ext x
  simp only [List.mem_toFinset, Finset.mem_erase, List.mem_map, List.mem_filter, bound]
  constructor
  · rintro ⟨⟨u, x'⟩, ⟨hm, hu⟩, rfl⟩
    refine ⟨fun hx => ?_, _, hm, rfl⟩
    have hux : p.lookup u = some s := lookup_of_mem hp.keys (hx ▸ hm)
    exact of_decide_eq_true hu (hp.eq_of_lookup hux hv)
  · rintro ⟨hx, ⟨u, x'⟩, hm, rfl⟩
    refine ⟨_, ⟨hm, decide_eq_true ?_⟩, rfl⟩
    rintro rfl
    exact hx (Option.some.inj ((lookup_of_mem hp.keys hm).symm.trans hv))

end Exclusive

/-! ### The set of the slots that are taken -/

/-- A pool that keeps the slots that are taken in a set of its own. -/
structure Warded where
  pool : Pool
  taken : Finset Slot := ∅

namespace Warded

/-- Binds a value to a slot; the set tells whether the slot is taken. -/
def bind (w : Warded) (value : ValueId) (slot : Slot) : Except Misuse Warded :=
  if value ∈ w.pool.released then .error (.readAfterRelease value)
  else if (w.pool.lookup value).isSome then .error (.alreadyBound value)
  else if slot ∈ w.taken then .error (.slotTaken value slot)
  else .ok ⟨{ w.pool with bindings := (value, slot) :: w.pool.bindings }, insert slot w.taken⟩

/-- The slot bound to a value, which is handed out and bound if there is none. -/
def allocateFor (w : Warded) (value : ValueId) (kind : Kind) (mode : Mode) :
    Except Misuse Slot × Warded :=
  match w.pool.lookup value with
  | some slot => (.ok slot, w)
  | none =>
    let (slot, pool) := w.pool.allocate kind mode
    match bind ⟨pool, w.taken⟩ value slot with
    | .ok w => (.ok slot, w)
    | .error e => (.error e, ⟨pool, w.taken⟩)

/-- Ends the life of a value and takes its slot out of the set. -/
def release (w : Warded) (value : ValueId) : Except Misuse (Slot × Warded) :=
  match w.pool.release value with
  | .ok (slot, pool) => .ok (slot, ⟨pool, w.taken.erase slot⟩)
  | .error e => .error e

/-- Makes a slot available again; the set tells whether it is taken. -/
def recycle (w : Warded) (slot : Slot) : Except Misuse Warded :=
  if slot ∈ w.taken then .error (.stillBound slot)
  else if slot ∈ w.pool.free then .error (.recycledTwice slot)
  else .ok ⟨{ w.pool with free := slot :: w.pool.free }, w.taken⟩

/-- The answer to a call, and the pool with its set after it. -/
def answer (w : Warded) : Request → Reply × Warded
  | .allocate kind mode =>
    let (slot, pool) := w.pool.allocate kind mode
    (.slot slot, ⟨pool, w.taken⟩)
  | .bind value slot =>
    match w.bind value slot with
    | .ok w => (.nothing, w)
    | .error e => (.refused e, w)
  | .lookup value =>
    match w.pool.lookup value with
    | some slot => (.slot slot, w)
    | none => (.nothing, w)
  | .allocateFor value kind mode =>
    match w.allocateFor value kind mode with
    | (.ok slot, w) => (.slot slot, w)
    | (.error e, w) => (.refused e, w)
  | .release value =>
    match w.release value with
    | .ok (slot, w) => (.slot slot, w)
    | .error e => (.refused e, w)
  | .recycle slot =>
    match w.recycle slot with
    | .ok w => (.nothing, w)
    | .error e => (.refused e, w)

/-- The answers to calls one after another, and the pool with its set after them. -/
def run (w : Warded) : List Request → List Reply × Warded
  | [] => ([], w)
  | request :: rest =>
    let (reply, w) := w.answer request
    let (replies, w) := w.run rest
    (reply :: replies, w)

/-- A pool with the set that its bindings tell. -/
def of (p : Pool) : Warded := ⟨p, p.bound.toFinset⟩

theorem bind_of (p : Pool) (v : ValueId) (s : Slot) : (of p).bind v s = (p.bind v s).map of := by
  simp only [bind, Pool.bind, of, List.mem_toFinset]
  split_ifs <;> simp [Except.map, of, bound]

theorem allocateFor_of (p : Pool) (v : ValueId) (kind : Kind) (mode : Mode) :
    (of p).allocateFor v kind mode =
      ((p.allocateFor v kind mode).1, of (p.allocateFor v kind mode).2) := by
  have hset : (⟨(p.allocate kind mode).2, p.bound.toFinset⟩ : Warded) =
      of (p.allocate kind mode).2 := by
    rw [of, bound, bound, bindings_allocate]
  rw [allocateFor, Pool.allocateFor]
  cases hl : p.lookup v with
  | some s => simp [of, hl]
  | none =>
    simp only [of, hl]
    rw [hset, bind_of]
    cases (p.allocate kind mode).2.bind v (p.allocate kind mode).1 <;> simp [Except.map, of]

theorem release_of (hp : p.Exclusive) (v : ValueId) :
    (of p).release v = (p.release v).map fun r => (r.1, of r.2) := by
  rw [release, Pool.release, of]
  cases hl : p.lookup v with
  | none => simp [Pool.release, hl, Except.map]
  | some s =>
    simp only [Pool.release, hl, Except.map, of]
    rw [← hp.toFinset_filter hl]
    rfl

theorem recycle_of (p : Pool) (s : Slot) : (of p).recycle s = (p.recycle s).map of := by
  have hb : s ∈ (of p).taken ↔ s ∈ p.bound := List.mem_toFinset
  have hf : s ∈ (of p).pool.free ↔ s ∈ p.free := Iff.rfl
  rw [recycle, Pool.recycle, if_congr hb rfl (if_congr hf rfl rfl)]
  split_ifs <;> rfl

/-- With the set that the bindings tell, every call is answered alike, and the set stays that one. -/
theorem answer_of (hp : p.Exclusive) (request : Request) :
    (of p).answer request = ((p.answer request).1, of (p.answer request).2) := by
  cases request with
  | allocate kind mode => simp [answer, Pool.answer, of, bound, bindings_allocate]
  | bind v s =>
    rw [answer, Pool.answer, bind_of]
    cases p.bind v s <;> rfl
  | lookup v =>
    have hl : (of p).pool.lookup v = p.lookup v := rfl
    rw [answer, Pool.answer, hl]
    cases p.lookup v <;> rfl
  | allocateFor v kind mode =>
    rw [answer, Pool.answer, allocateFor_of]
    rcases p.allocateFor v kind mode with ⟨e | s, q⟩ <;> rfl
  | release v =>
    rw [answer, Pool.answer, release_of hp]
    cases p.release v <;> rfl
  | recycle s =>
    rw [answer, Pool.answer, recycle_of]
    cases p.recycle s <;> rfl

theorem run_of (hp : p.Exclusive) (requests : List Request) :
    (of p).run requests = ((p.run requests).1, of (p.run requests).2) := by
  induction requests generalizing p with
  | nil => rfl
  | cons request rest ih =>
    rw [run, answer_of hp]
    simp only [ih ((turn_answer p request).exclusive hp)]
    rfl

end Warded

/-! ### Any run of any calls -/

/-- A value has been released: it has no slot, and whoever binds it, asks for its slot or releases it
is refused. -/
structure Gone (p : Pool) (v : ValueId) : Prop where
  lookup : p.lookup v = none
  bind : ∀ s, p.bind v s = .error (.readAfterRelease v)
  allocateFor : ∀ kind mode, (p.allocateFor v kind mode).1 = .error (.readAfterRelease v)
  release : p.release v = .error (.notBound v)

theorem Exclusive.gone (hp : p.Exclusive) {v : ValueId} (hv : v ∈ p.released) : p.Gone v := by
  have hl := hp.released v hv
  refine ⟨hl, fun s => by rw [Pool.bind, if_pos hv], fun kind mode => ?_, by rw [Pool.release, hl]⟩
  have hr : v ∈ (p.allocate kind mode).2.released :=
    released_allocate p kind mode ▸ hv
  rw [Pool.allocateFor, hl]
  simp only [Pool.bind, if_pos hr]

/-- What holds of a pool, and of a set of the slots that are taken, now and in all that follows. -/
structure Guarded (p : Pool) (taken : Finset Slot) : Prop where
  /-- No two values have one slot. -/
  unshared : ∀ v v' s, p.lookup v = some s → p.lookup v' = some s → v = v'
  /-- The slots that are taken are those that values have. -/
  mem_taken : ∀ s, s ∈ taken ↔ ∃ v, p.lookup v = some s
  liveCount : p.liveCount = taken.card
  /-- A binding stays until its own value is released. -/
  kept : ∀ v s more, p.lookup v = some s → .release v ∉ more → (p.run more).2.lookup v = some s
  /-- A value that is released is gone for good. -/
  gone : ∀ v s q more, p.release v = .ok (s, q) → (q.run more).2.Gone v

/-- **No sharing and no return**: after any calls of a new pool, also with slots that the caller has
no right to and with calls that are refused, no slot has two values, bindings stay until their own
values are released, and released values never have a slot again. A pool that keeps the slots that are
taken in a set of its own answers all calls alike, and its set holds exactly the slots that values have. -/
theorem run_guarded (reuse : Bool) (requests : List Request) :
    ∃ taken, (⟨{ reuse }, ∅⟩ : Warded).run requests =
        ((({ reuse } : Pool).run requests).1, ⟨(({ reuse } : Pool).run requests).2, taken⟩) ∧
      (({ reuse } : Pool).run requests).2.Guarded taken := by
  have hnew := exclusive_new reuse
  have hp := hnew.run requests
  refine ⟨_, Warded.run_of hnew requests, fun v v' s => hp.eq_of_lookup, fun s => ?_, ?_,
    fun v s more hv hne => lookup_run hne hv, fun v s q more hr => ?_⟩
  · rw [List.mem_toFinset, hp.mem_bound_iff]
  · rw [List.toFinset_card_of_nodup hp.slots, bound, List.length_map, Pool.liveCount]
  · have hq : q.Exclusive := (turn_release hr).exclusive hp
    have hv : v ∈ q.released := by
      rw [Pool.release] at hr
      split at hr
      · obtain ⟨-, rfl⟩ := Prod.mk.inj (Except.ok.inj hr)
        exact List.mem_cons_self
      · cases hr
    exact (hq.run more).gone (mem_released_run hv more)

/-- A slot that a value has given back can be taken by a caller who knows it. The pool would hand it out
again all the same, but not for long: it is refused when it is to be bound. -/
example : (({} : Pool).run [.allocateFor ⟨0⟩ .int .shared, .release ⟨0⟩, .bind ⟨1⟩ ⟨.int, 0⟩,
      .recycle ⟨.int, 0⟩, .allocateFor ⟨2⟩ .int .shared, .lookup ⟨2⟩, .bind ⟨0⟩ ⟨.int, 1⟩]).1 =
    [.slot ⟨.int, 0⟩, .slot ⟨.int, 0⟩, .nothing, .refused (.stillBound ⟨.int, 0⟩),
      .refused (.slotTaken ⟨2⟩ ⟨.int, 0⟩), .nothing, .refused (.readAfterRelease ⟨0⟩)] := by decide

end LoopTrace.Pool
