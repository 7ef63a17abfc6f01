import LoopTrace.Journal
import LoopTrace.Proofs.Pool
import Mathlib.Data.List.Count
import Mathlib.Data.List.Range

/-!
# Where the slots of a pool are

A pool and its caller hold the slots between them. A slot is minted once, and from then on it is in one
place at a time: bound to one value, in the pool to be handed out again, or outstanding. Outstanding
slots are those that the caller owns, and those that a request took before it was refused, which nobody
can use any more.

The accounts of a run (`Custody`) say which slots were minted, which of them the caller owns, and which
were dropped. The pool itself keeps no such accounts: it neither checks what it is given to bind, nor
looks for a slot that it releases. As long as the caller binds and gives back only what it owns, each
call keeps the accounts straight (`Accounted.after`), and so does every run of calls
(`run_partitions`).
-/

namespace LoopTrace

/-- The slot that an event says is a new one. -/
def Event.minted? : Event → Option Slot
  | .minted s => some s
  | _ => none

namespace Pool

/-- The slots to hand out again that are of a kind. -/
def freeOf (p : Pool) (kind : Kind) : List Slot := p.free.filter (·.kind = kind)

theorem count_freeOf (p : Pool) (s : Slot) : (p.freeOf s.kind).count s = p.free.count s :=
  List.count_filter (by simp)

/-! ### What one operation does to the slots -/

/-- The slots that are new when a slot is handed out. -/
def mintedBy (p : Pool) (kind : Kind) (mode : Mode) : List Slot :=
  [p.allocationEvent kind mode].filterMap Event.minted?

/-- Handing out a slot takes it from those to hand out again, or makes it. -/
theorem allocate_mintedBy (p : Pool) (kind : Kind) (mode : Mode) :
    (∃ s ∈ p.free, p.allocate kind mode = (s, { p with free := p.free.erase s }) ∧
      p.mintedBy kind mode = []) ∨
    p.allocate kind mode = (⟨kind, p.next⟩, { p with next := p.next + 1 }) ∧
      p.mintedBy kind mode = [⟨kind, p.next⟩] := by
  rw [mintedBy, allocationEvent, allocate]
  cases h : p.reusable? kind mode with
  | some s =>
    obtain ⟨-, hs, -⟩ := reusable?_eq_some h
    exact Or.inl ⟨s, hs, rfl, by simp [Event.minted?]⟩
  | none => exact Or.inr ⟨rfl, by simp [Event.minted?]⟩

/-- No slot is lost or doubled when one is handed out. -/
theorem count_allocate (p : Pool) (kind : Kind) (mode : Mode) (x : Slot) :
    [(p.allocate kind mode).1].count x + (p.allocate kind mode).2.free.count x =
      p.free.count x + (p.mintedBy kind mode).count x := by
  rcases allocate_mintedBy p kind mode with ⟨s, hs, ha, hm⟩ | ⟨ha, hm⟩
  · rw [ha, hm]
    have h := (List.perm_cons_erase hs).count_eq x
    rw [← List.singleton_append, List.count_append] at h
    simpa using h.symm
  · rw [ha, hm, Nat.add_comm]

/-- New slots are numbered in the order in which they are made. -/
theorem serials_allocate (p : Pool) (kind : Kind) (mode : Mode) :
    (p.mintedBy kind mode).map Slot.serial ++ (List.range p.next).reverse =
      (List.range (p.allocate kind mode).2.next).reverse := by
  rcases allocate_mintedBy p kind mode with ⟨s, -, ha, hm⟩ | ⟨ha, hm⟩
  · rw [ha, hm]
    rfl
  · rw [ha, hm]
    simp [List.range_succ]

/-- What binding a value does, if it is not refused. -/
theorem bind_eq_ok {p q : Pool} {v : ValueId} {s : Slot} (h : p.bind v s = .ok q) :
    p.lookup v = none ∧ q = { p with bindings := (v, s) :: p.bindings } := by
  rw [bind] at h
  split_ifs at h with _ hl _
  exact ⟨by simpa using hl, (Except.ok.inj h).symm⟩

/-- What ending the life of a value does, if it is not refused. -/
theorem release_eq_ok {p q : Pool} {v : ValueId} {s : Slot} (h : p.release v = .ok (s, q)) :
    p.lookup v = some s ∧ q.next = p.next ∧ q.free = s :: p.free ∧
      q.bindings = p.bindings.filter (·.1 ≠ v) := by
  rw [release] at h
  split at h
  · next s' hl =>
    obtain ⟨rfl, rfl⟩ := Prod.mk.inj (Except.ok.inj h)
    exact ⟨hl, rfl, rfl, rfl⟩
  · cases h

/-- The bound slots without that of one value. -/
theorem count_filter_ne {l : List (ValueId × Slot)} (hk : (l.map Prod.fst).Nodup) {v : ValueId}
    {s : Slot} (h : l.lookup v = some s) (x : Slot) :
    [s].count x + ((l.filter (·.1 ≠ v)).map Prod.snd).count x = (l.map Prod.snd).count x := by
  obtain ⟨l₁, l₂, rfl, -⟩ := List.lookup_eq_some_iff.1 h
  have hne : ∀ e ∈ l₁ ++ l₂, e.1 ≠ v := by
    rw [List.map_append, List.map_cons] at hk
    have hn := (List.nodup_middle.1 hk)
    rw [List.nodup_cons, ← List.map_append] at hn
    exact fun e he hv => hn.1 (List.mem_map.2 ⟨e, he, hv⟩)
  have hf : (l₁ ++ (v, s) :: l₂).filter (·.1 ≠ v) = l₁ ++ l₂ := by
    rw [List.filter_append, List.filter_cons_of_neg (by simp), ← List.filter_append]
    exact List.filter_eq_self.2 fun e he => by simpa using hne e he
  rw [hf]
  simp only [List.map_append, List.map_cons, List.count_append, List.count_cons, List.count_nil]
  omega

/-- What giving back a slot does, if it is not refused. -/
theorem recycle_eq_ok {p q : Pool} {s : Slot} (h : p.recycle s = .ok q) :
    s ∉ p.free ∧ q = { p with free := s :: p.free } := by
  rw [recycle] at h
  split_ifs at h with _ hf
  exact ⟨hf, (Except.ok.inj h).symm⟩

/-! ### Accounts -/

/-- A pool together with the accounts of all slots that it ever made. -/
structure Custody where
  pool : Pool
  /-- The slots minted so far, the last one first. -/
  minted : List Slot := []
  /-- The slots that were handed out to the caller, and neither bound nor given back since. -/
  owned : List Slot := []
  /-- The slots that refused requests took. -/
  dropped : List Slot := []

namespace Custody

/-- A new pool, before any call. -/
def opening (reuse : Bool) : Custody := { pool := { reuse } }

/-- The accounts after a call, refused or not. -/
def after (c : Custody) (request : Request) : Custody where
  pool := (c.pool.answer request).2
  minted := (c.pool.events request).filterMap Event.minted? ++ c.minted
  owned :=
    match request, (c.pool.answer request).1 with
    | .allocate _ _, .slot s => s :: c.owned
    | .bind _ s, .nothing => c.owned.erase s
    | .recycle s, .nothing => c.owned.erase s
    | _, _ => c.owned
  dropped :=
    match request, (c.pool.answer request).1 with
    | .allocateFor _ kind mode, .refused _ => (c.pool.allocate kind mode).1 :: c.dropped
    | _, _ => c.dropped

theorem pool_after (c : Custody) (request : Request) :
    (c.after request).pool = (c.pool.answer request).2 := rfl

theorem minted_after (c : Custody) (request : Request) : (c.after request).minted =
    (c.pool.events request).filterMap Event.minted? ++ c.minted := rfl

/-- The accounts after calls one after another. -/
def afterAll (c : Custody) (requests : List Request) : Custody := requests.foldl after c

/-- The caller binds and gives back only what it owns. -/
def Permits (c : Custody) : Request → Prop
  | .bind _ s | .recycle s => s ∈ c.owned
  | _ => True

instance (c : Custody) : (request : Request) → Decidable (c.Permits request)
  | .bind _ s | .recycle s => inferInstanceAs (Decidable (s ∈ c.owned))
  | .allocate .. | .lookup _ | .allocateFor .. | .release _ => inferInstanceAs (Decidable True)

/-- Each of the calls is permitted when it is made. -/
def PermitsAll : Custody → List Request → Prop
  | _, [] => True
  | c, request :: rest => c.Permits request ∧ (c.after request).PermitsAll rest

instance decidablePermitsAll :
    (c : Custody) → (requests : List Request) → Decidable (c.PermitsAll requests)
  | _, [] => inferInstanceAs (Decidable True)
  | c, request :: rest =>
    have := decidablePermitsAll (c.after request) rest
    inferInstanceAs (Decidable (c.Permits request ∧ (c.after request).PermitsAll rest))

/-- The slots that the caller has, and those that nobody has. -/
def outstanding (c : Custody) : List Slot := c.owned ++ c.dropped

/-- The accounts are straight: new slots are numbered one after another, and each slot that was minted,
and no other, is accounted for once. -/
structure Accounted (c : Custody) : Prop where
  /-- No value has two slots. -/
  keys : (c.pool.bindings.map Prod.fst).Nodup
  serials : c.minted.map Slot.serial = (List.range c.pool.next).reverse
  places : ∀ s, c.pool.bound.count s + c.pool.free.count s + c.outstanding.count s =
    c.minted.count s

theorem accounted_opening (reuse : Bool) : (opening reuse).Accounted :=
  ⟨List.nodup_nil, rfl, fun _ => rfl⟩

theorem pool_afterAll (c : Custody) (requests : List Request) :
    (c.afterAll requests).pool = (c.pool.run requests).2 := by
  induction requests generalizing c with
  | nil => rfl
  | cons request rest ih =>
    rw [afterAll, List.foldl_cons, ← afterAll, ih]
    rfl

section Step

variable {c : Custody}

/-- A value that is not bound has no entry. -/
theorem Accounted.keys_cons (h : c.Accounted) {v : ValueId} (hl : c.pool.lookup v = none) :
    (v :: c.pool.bindings.map Prod.fst).Nodup := by
  refine List.nodup_cons.2 ⟨fun hv => ?_, h.keys⟩
  obtain ⟨⟨v', s⟩, hm, rfl⟩ := List.mem_map.1 hv
  exact Option.some_ne_none s ((lookup_of_mem h.keys hm).symm.trans hl)

/-- A slot is handed out to the caller. -/
theorem Accounted.allocate (h : c.Accounted) (kind : Kind) (mode : Mode) :
    (c.after (.allocate kind mode)).Accounted := by
  have ha : c.after (.allocate kind mode) =
      ⟨(c.pool.allocate kind mode).2, c.pool.mintedBy kind mode ++ c.minted,
        (c.pool.allocate kind mode).1 :: c.owned, c.dropped⟩ := rfl
  rw [ha]
  refine ⟨?_, ?_, fun x => ?_⟩
  · rw [bindings_allocate]
    exact h.keys
  · rw [List.map_append, h.serials]
    exact serials_allocate ..
  · have hp := h.places x
    have hc := count_allocate c.pool kind mode x
    simp only [outstanding, bound, bindings_allocate, List.cons_append, List.count_append,
      List.count_cons, List.count_nil] at hp hc ⊢
    omega

/-- A slot that the caller owns holds a value from now on. -/
theorem Accounted.bind (h : c.Accounted) {v : ValueId} {s : Slot} (hs : s ∈ c.owned) :
    (c.after (.bind v s)).Accounted := by
  cases hb : c.pool.bind v s with
  | error e =>
    have ha : c.after (.bind v s) = c := by simp [after, answer, events, hb]
    rwa [ha]
  | ok q =>
    have ha : c.after (.bind v s) = ⟨q, c.minted, c.owned.erase s, c.dropped⟩ := by
      simp [after, answer, events, hb]
    obtain ⟨hl, rfl⟩ := bind_eq_ok hb
    rw [ha]
    refine ⟨h.keys_cons hl, h.serials, fun x => ?_⟩
    have hp := h.places x
    have ho := (List.perm_cons_erase hs).count_eq x
    simp only [outstanding, bound, List.map_cons, List.count_append, List.count_cons] at hp ho ⊢
    omega

/-- A slot that the caller owns is lost. -/
theorem Accounted.drop (h : c.Accounted) {s : Slot} (hs : s ∈ c.owned) :
    (⟨c.pool, c.minted, c.owned.erase s, s :: c.dropped⟩ : Custody).Accounted := by
  refine ⟨h.keys, h.serials, fun x => ?_⟩
  have hp := h.places x
  have ho := (List.perm_cons_erase hs).count_eq x
  simp only [outstanding, List.count_append, List.count_cons] at hp ho ⊢
  omega

/-- A value that has no slot gets one: it is handed out and bound, or lost if the value has been
released. -/
theorem Accounted.allocateFor (h : c.Accounted) (v : ValueId) (kind : Kind) (mode : Mode) :
    (c.after (.allocateFor v kind mode)).Accounted := by
  cases hl : c.pool.lookup v with
  | some s =>
    have ha : c.after (.allocateFor v kind mode) = c := by
      simp [after, answer, events, Pool.allocateFor, hl]
    rwa [ha]
  | none =>
    have hallocated := h.allocate kind mode
    have howned : (c.pool.allocate kind mode).1 ∈ (c.after (.allocate kind mode)).owned :=
      List.mem_cons_self
    have hevents : c.pool.events (.allocateFor v kind mode) =
        c.pool.events (.allocate kind mode) := by
      simp [events, hl]
    cases hb : (c.pool.allocate kind mode).2.bind v (c.pool.allocate kind mode).1 with
    | error e =>
      have ha : c.after (.allocateFor v kind mode) =
          ⟨(c.after (.allocate kind mode)).pool, (c.after (.allocate kind mode)).minted,
            (c.after (.allocate kind mode)).owned.erase (c.pool.allocate kind mode).1,
            (c.pool.allocate kind mode).1 :: (c.after (.allocate kind mode)).dropped⟩ := by
        simp [after, hevents, answer, Pool.allocateFor, hl, hb]
      rw [ha]
      exact hallocated.drop howned
    | ok q =>
      have ha : c.after (.allocateFor v kind mode) =
          (c.after (.allocate kind mode)).after (.bind v (c.pool.allocate kind mode).1) := by
        simp [after, answer, Pool.allocateFor, hl, hb, events]
      rw [ha]
      exact hallocated.bind howned

/-- A slot that held a value is to be handed out again. -/
theorem Accounted.release (h : c.Accounted) (v : ValueId) : (c.after (.release v)).Accounted := by
  cases hr : c.pool.release v with
  | error e =>
    have hl : c.pool.lookup v = none := by
      rw [Pool.release] at hr
      split at hr
      · cases hr
      · assumption
    have ha : c.after (.release v) = c := by simp [after, answer, events, hr, hl]
    rwa [ha]
  | ok r =>
    obtain ⟨s, q⟩ := r
    obtain ⟨hl, hn, hf, hbs⟩ := release_eq_ok hr
    have ha : c.after (.release v) = ⟨q, c.minted, c.owned, c.dropped⟩ := by
      simp [after, answer, events, hr, hl, Event.minted?]
    rw [ha]
    refine ⟨?_, by rw [hn]; exact h.serials, fun x => ?_⟩
    · rw [hbs]
      exact h.keys.sublist (List.filter_sublist.map _)
    · have hp := h.places x
      have hc := count_filter_ne h.keys hl x
      simp only [outstanding, bound, hf, hbs, List.count_append, List.count_cons, List.count_nil]
        at hp hc ⊢
      omega

/-- A slot that the caller owned is to be handed out again. -/
theorem Accounted.recycle (h : c.Accounted) {s : Slot} (hs : s ∈ c.owned) :
    (c.after (.recycle s)).Accounted := by
  cases hr : c.pool.recycle s with
  | error e =>
    have ha : c.after (.recycle s) = c := by simp [after, answer, events, hr]
    rwa [ha]
  | ok q =>
    have ha : c.after (.recycle s) = ⟨q, c.minted, c.owned.erase s, c.dropped⟩ := by
      simp [after, answer, events, hr]
    obtain ⟨-, rfl⟩ := recycle_eq_ok hr
    rw [ha]
    refine ⟨h.keys, h.serials, fun x => ?_⟩
    have hp := h.places x
    have ho := (List.perm_cons_erase hs).count_eq x
    simp only [outstanding, bound, List.count_append, List.count_cons] at hp ho ⊢
    omega

/-- A permitted call keeps the accounts straight, whether it is refused or not. -/
theorem Accounted.after (h : c.Accounted) {request : Request} (hp : c.Permits request) :
    (c.after request).Accounted := by
  cases request with
  | allocate kind mode => exact h.allocate kind mode
  | bind v s => exact h.bind hp
  | lookup v =>
    have ha : c.after (.lookup v) = c := by
      cases hl : c.pool.lookup v <;> simp [Custody.after, answer, events, hl]
    rwa [ha]
  | allocateFor v kind mode => exact h.allocateFor v kind mode
  | release v => exact h.release v
  | recycle s => exact h.recycle hp

end Step

/-- So does a run of permitted calls. -/
theorem Accounted.afterAll {c : Custody} (h : c.Accounted) {requests : List Request}
    (hp : c.PermitsAll requests) : (c.afterAll requests).Accounted := by
  induction requests generalizing c with
  | nil => exact h
  | cons request rest ih => exact ih (h.after hp.1) hp.2

/-! ### One place for each slot -/

/-- Each slot that was minted is in one place, and what follows from that for the next call. -/
structure Partitioned (c : Custody) : Prop where
  serial_lt : ∀ s ∈ c.minted, s.serial < c.pool.next
  /-- Slots have their own serials, also if they are of different kinds. -/
  serial_inj : ∀ s ∈ c.minted, ∀ s' ∈ c.minted, s.serial = s'.serial → s = s'
  one_place : ∀ s ∈ c.minted,
    ((∃! v, c.pool.lookup v = some s) ∧ s ∉ c.pool.free ∧ s ∉ c.outstanding) ∨
    (s ∉ c.pool.bound ∧ (c.pool.freeOf s.kind).count s = 1 ∧ s ∉ c.outstanding) ∨
    (s ∉ c.pool.bound ∧ s ∉ c.pool.free ∧ c.outstanding.count s = 1)
  /-- There is no slot anywhere that was not minted. -/
  minted : ∀ s, s ∈ c.pool.bound ∨ s ∈ c.pool.free ∨ s ∈ c.outstanding → s ∈ c.minted
  allocate : ∀ kind mode, (c.pool.allocate kind mode).1 ∉ c.pool.bound ∧
    (c.pool.allocate kind mode).1 ∉ c.outstanding
  allocateFor : ∀ v kind mode s, c.pool.lookup v = none →
    (c.pool.allocateFor v kind mode).1 = .ok s → s ∉ c.pool.bound ∧ s ∉ c.outstanding
  free : c.pool.free.Nodup
  release : ∀ v s q, c.pool.release v = .ok (s, q) → q.free.Nodup
  recycle : ∀ s q, c.pool.recycle s = .ok q → q.free.Nodup

namespace Accounted

variable {c : Custody}

theorem nodup_minted (h : c.Accounted) : c.minted.Nodup :=
  List.Nodup.of_map Slot.serial (h.serials ▸ List.nodup_reverse.2 List.nodup_range)

theorem serial_lt (h : c.Accounted) {s : Slot} (hs : s ∈ c.minted) : s.serial < c.pool.next := by
  have hm := List.mem_map_of_mem (f := Slot.serial) hs
  rwa [h.serials, List.mem_reverse, List.mem_range] at hm

/-- A slot is accounted for once at most. -/
theorem count_le (h : c.Accounted) (s : Slot) :
    c.pool.bound.count s + c.pool.free.count s + c.outstanding.count s ≤ 1 :=
  h.places s ▸ List.nodup_iff_count_le_one.1 h.nodup_minted s

theorem mem_minted (h : c.Accounted) {s : Slot} :
    s ∈ c.minted ↔ s ∈ c.pool.bound ∨ s ∈ c.pool.free ∨ s ∈ c.outstanding := by
  have hp := h.places s
  simp only [← List.count_pos_iff]
  omega

/-- The bound slots have one value each. -/
theorem existsUnique_lookup (h : c.Accounted) {s : Slot} (hs : s ∈ c.pool.bound) :
    ∃! v, c.pool.lookup v = some s := by
  obtain ⟨⟨v, s'⟩, hm, rfl⟩ := List.mem_map.1 hs
  have hn : c.pool.bound.Nodup := List.nodup_iff_count_le_one.2 fun x => by
    have := h.count_le x
    omega
  refine ⟨v, lookup_of_mem h.keys hm, fun u hu => ?_⟩
  have he := List.inj_on_of_nodup_map hn (mem_of_lookup hu) hm rfl
  exact (Prod.mk.inj he).1

/-- The slot that is handed out is neither bound nor outstanding: it comes from the other place, or
from none. -/
theorem allocate_new (h : c.Accounted) (kind : Kind) (mode : Mode) :
    (c.pool.allocate kind mode).1 ∉ c.pool.bound ∧
      (c.pool.allocate kind mode).1 ∉ c.outstanding := by
  have hc := h.count_le (c.pool.allocate kind mode).1
  rcases allocate_mintedBy c.pool kind mode with ⟨s, hs, ha, -⟩ | ⟨ha, -⟩
  · have hf := List.count_pos_iff.2 hs
    rw [ha] at hc ⊢
    rw [← List.count_eq_zero, ← List.count_eq_zero]
    simp only at hc ⊢
    omega
  · rw [ha]
    have hnew : (⟨kind, c.pool.next⟩ : Slot) ∉ c.minted := fun hm =>
      absurd (h.serial_lt hm) (Nat.lt_irrefl _)
    rw [h.mem_minted] at hnew
    tauto

theorem allocateFor_new (h : c.Accounted) {v : ValueId} {kind : Kind} {mode : Mode} {s : Slot}
    (hl : c.pool.lookup v = none) (hs : (c.pool.allocateFor v kind mode).1 = .ok s) :
    s ∉ c.pool.bound ∧ s ∉ c.outstanding := by
  have he : s = (c.pool.allocate kind mode).1 := by
    rw [Pool.allocateFor, hl] at hs
    simp only at hs
    split at hs
    · exact (Except.ok.inj hs).symm
    · cases hs
  rw [he]
  exact h.allocate_new kind mode

theorem nodup_free (h : c.Accounted) : c.pool.free.Nodup :=
  List.nodup_iff_count_le_one.2 fun s => by
    have := h.count_le s
    omega

theorem nodup_free_release (h : c.Accounted) {v : ValueId} {s : Slot} {q : Pool}
    (hr : c.pool.release v = .ok (s, q)) : q.free.Nodup := by
  obtain ⟨hl, -, hf, -⟩ := release_eq_ok hr
  have hb := List.count_pos_iff.2 (mem_bound_of_lookup hl)
  have hc := h.count_le s
  rw [hf, List.nodup_cons, ← List.count_eq_zero]
  exact ⟨by omega, h.nodup_free⟩

theorem nodup_free_recycle (h : c.Accounted) {s : Slot} {q : Pool}
    (hr : c.pool.recycle s = .ok q) : q.free.Nodup := by
  obtain ⟨hs, rfl⟩ := recycle_eq_ok hr
  exact List.nodup_cons.2 ⟨hs, h.nodup_free⟩

theorem partitioned (h : c.Accounted) : c.Partitioned where
  serial_lt _ := h.serial_lt
  serial_inj s hs s' hs' he := by
    have hn : (c.minted.map Slot.serial).Nodup :=
      h.serials ▸ List.nodup_reverse.2 List.nodup_range
    exact List.inj_on_of_nodup_map hn hs hs' he
  one_place s hs := by
    have hc := h.count_le s
    rw [count_freeOf]
    rcases h.mem_minted.1 hs with hb | hf | ho
    · have hb' := List.count_pos_iff.2 hb
      refine Or.inl ⟨h.existsUnique_lookup hb, ?_, ?_⟩ <;> rw [← List.count_eq_zero] <;> omega
    · have hf' := List.count_pos_iff.2 hf
      refine Or.inr (Or.inl ⟨?_, by omega, ?_⟩) <;> rw [← List.count_eq_zero] <;> omega
    · have ho' := List.count_pos_iff.2 ho
      refine Or.inr (Or.inr ⟨?_, ?_, by omega⟩) <;> rw [← List.count_eq_zero] <;> omega
  minted _ := h.mem_minted.2
  allocate := h.allocate_new
  allocateFor _ _ _ _ := h.allocateFor_new
  free := h.nodup_free
  release _ _ _ := h.nodup_free_release
  recycle _ _ := h.nodup_free_recycle

end Accounted

end Custody

/-- At the end of every run of permitted calls, and so at each moment of one, the slots that were minted
have serials of their own, and each is in one place: bound to one value, once among the slots of its
kind to hand out again, or outstanding. -/
theorem run_partitions (reuse : Bool) (requests : List Request)
    (hp : (Custody.opening reuse).PermitsAll requests) :
    ((Custody.opening reuse).afterAll requests).pool = (({ reuse } : Pool).run requests).2 ∧
      ((Custody.opening reuse).afterAll requests).Partitioned :=
  ⟨Custody.pool_afterAll _ _, ((Custody.accounted_opening reuse).afterAll hp).partitioned⟩

/-- Calls that bring slots to every place: `i0` serves one value after another, `i1` is lost to a value that
has been released, `l2` is given back, and the caller keeps `f3`. -/
def tour : List Request :=
  [.allocateFor ⟨0⟩ .int .shared, .release ⟨0⟩, .allocate .int .shared, .bind ⟨1⟩ ⟨.int, 0⟩,
    .allocateFor ⟨0⟩ .int .shared, .allocate .long .exclusive, .recycle ⟨.long, 2⟩,
    .allocate .float .shared]

theorem run_partitions_tour :
    (Custody.opening true).PermitsAll tour ∧
      ((Custody.opening true).afterAll tour).Partitioned ∧
      ((Custody.opening true).afterAll tour).pool.bound = [⟨.int, 0⟩] ∧
      ((Custody.opening true).afterAll tour).pool.free = [⟨.long, 2⟩] ∧
      ((Custody.opening true).afterAll tour).outstanding = [⟨.float, 3⟩, ⟨.int, 1⟩] :=
  ⟨by decide, (run_partitions true tour (by decide)).2, by decide, by decide, by decide⟩

end Pool
end LoopTrace
