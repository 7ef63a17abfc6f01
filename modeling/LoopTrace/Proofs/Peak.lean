import LoopTrace.Proofs.Custody
import Mathlib.Data.Finset.Card
import Mathlib.Data.Finset.Dedup

/-!
# How many slots a pool makes

A request that may share a slot has a new one made only if there is none of its kind to hand out again,
so that all slots of the kind are in use at that moment. Therefore no more slots are made for such
requests than were once in use together (`run_optimal`).

A slot that was made for a request of its own can come back and serve one that shares. It is in use by a
sharing request then, but was not made for one, so that the bound need not be reached. Where no such slot
comes back, it is.

The ledger of a run says for which requests slots were made and handed out. One call does one of three
things to it (`Ledger.turn_after`): it hands out a slot again, it has a new one made, or it hands out none.
-/

namespace LoopTrace.Pool

/-- The kind and the mode of the slot that a call has handed out, if it does. -/
def Request.draw? (p : Pool) : Request → Option (Kind × Mode)
  | .allocate kind mode => some (kind, mode)
  | .allocateFor value kind mode => if (p.lookup value).isSome then none else some (kind, mode)
  | _ => none

/-- The accounts of a run, and what its slots were made and handed out for. -/
structure Ledger where
  custody : Custody
  /-- The slots that were handed out, each with the mode of the request, the last one first. -/
  issues : List (Slot × Mode) := []
  /-- Those of them that were made for the request. -/
  mints : List (Slot × Mode) := []
  /-- The slots that were released or given back. -/
  returned : List Slot := []

namespace Ledger

/-- A new pool, before any call. -/
def opening (reuse : Bool) : Ledger := { custody := .opening reuse }

/-- The ledger after a call, refused or not. -/
def after (l : Ledger) (request : Request) : Ledger where
  custody := l.custody.after request
  issues :=
    match request.draw? l.custody.pool with
    | some (kind, mode) => ((l.custody.pool.allocate kind mode).1, mode) :: l.issues
    | none => l.issues
  mints :=
    match request.draw? l.custody.pool with
    | some (kind, mode) => (l.custody.pool.mintedBy kind mode).map (·, mode) ++ l.mints
    | none => l.mints
  returned :=
    match request, (l.custody.pool.answer request).1 with
    | .release _, .slot s => s :: l.returned
    | .recycle s, .nothing => s :: l.returned
    | _, _ => l.returned

/-- The ledger after calls one after another. -/
def afterAll (l : Ledger) (requests : List Request) : Ledger := requests.foldl after l

/-- The slots of a kind that were made for requests that share. -/
def made (l : Ledger) (kind : Kind) : Finset Slot :=
  ((l.mints.filter fun e => e.1.kind = kind ∧ e.2 = .shared).map Prod.fst).toFinset

/-- What a call does to the ledger. -/
inductive Turn (l l' : Ledger) : Prop where
  /-- It hands out a slot that had come back. -/
  | reuses (kind : Kind) (s : Slot) (found : l.custody.pool.reusable? kind .shared = some s)
      (freed : l'.custody.pool.free = l.custody.pool.free.erase s)
      (minted : l'.custody.minted = l.custody.minted) (issues : l'.issues = (s, .shared) :: l.issues)
      (mints : l'.mints = l.mints) (returned : l'.returned = l.returned)
  /-- It has a slot made. -/
  | mints (kind : Kind) (mode : Mode) (needed : l.custody.pool.reusable? kind mode = none)
      (freed : l'.custody.pool.free = l.custody.pool.free)
      (minted : l'.custody.minted = ⟨kind, l.custody.pool.next⟩ :: l.custody.minted)
      (issues : l'.issues = (⟨kind, l.custody.pool.next⟩, mode) :: l.issues)
      (mints : l'.mints = (⟨kind, l.custody.pool.next⟩, mode) :: l.mints)
      (returned : l'.returned = l.returned)
  /-- It hands out none, and may let one come back. -/
  | rests (back : List Slot) (freed : l'.custody.pool.free = back ++ l.custody.pool.free)
      (minted : l'.custody.minted = l.custody.minted) (issues : l'.issues = l.issues)
      (mints : l'.mints = l.mints) (returned : l'.returned = back ++ l.returned)

/-- A request takes a slot that had come back, or has one made. -/
theorem turn_draw {l l' : Ledger} (kind : Kind) (mode : Mode)
    (hf : l'.custody.pool.free = (l.custody.pool.allocate kind mode).2.free)
    (hm : l'.custody.minted = l.custody.pool.mintedBy kind mode ++ l.custody.minted)
    (hi : l'.issues = ((l.custody.pool.allocate kind mode).1, mode) :: l.issues)
    (hs : l'.mints = (l.custody.pool.mintedBy kind mode).map (·, mode) ++ l.mints)
    (hr : l'.returned = l.returned) : l.Turn l' := by
  have hminted : l.custody.pool.mintedBy kind mode =
      if (l.custody.pool.reusable? kind mode).isSome then []
      else [(l.custody.pool.allocate kind mode).1] := by
    rw [mintedBy, allocationEvent]
    split_ifs <;> rfl
  cases h : l.custody.pool.reusable? kind mode with
  | some s =>
    obtain ⟨rfl, -, -⟩ := reusable?_eq_some h
    have ha : l.custody.pool.allocate kind .shared =
        (s, { l.custody.pool with free := l.custody.pool.free.erase s }) := by rw [allocate, h]
    rw [h] at hminted
    simp only [ha, hminted] at hf hm hi hs
    exact .reuses kind s h hf hm hi hs hr
  | none =>
    have ha : l.custody.pool.allocate kind mode =
        (⟨kind, l.custody.pool.next⟩, { l.custody.pool with next := l.custody.pool.next + 1 }) := by
      rw [allocate, h]
    rw [h] at hminted
    simp only [ha, hminted] at hf hm hi hs
    exact .mints kind mode h hf hm hi hs hr

/-- **One call**, whoever makes it. -/
theorem turn_after (l : Ledger) (request : Request) : l.Turn (l.after request) := by
  cases request with
  | allocate kind mode => exact turn_draw kind mode rfl rfl rfl rfl rfl
  | bind v s =>
    refine .rests [] ?_ rfl rfl rfl rfl
    cases hb : l.custody.pool.bind v s with
    | error e => simp [after, Custody.after, answer, hb]
    | ok q =>
      obtain ⟨-, rfl⟩ := bind_eq_ok hb
      simp [after, Custody.after, answer, hb]
  | lookup v =>
    refine .rests [] ?_ rfl rfl rfl rfl
    cases hl : l.custody.pool.lookup v <;> simp [after, Custody.after, answer, hl]
  | allocateFor v kind mode =>
    cases hl : l.custody.pool.lookup v with
    | some s =>
      refine .rests [] ?_ ?_ ?_ ?_ ?_ <;>
        simp [after, Custody.after, answer, events, Request.draw?, Pool.allocateFor, hl]
    | none =>
      refine turn_draw kind mode ?_ ?_ ?_ ?_ ?_
      · cases hb : (l.custody.pool.allocate kind mode).2.bind v (l.custody.pool.allocate kind mode).1 with
        | error e => simp [after, Custody.after, answer, Pool.allocateFor, hl, hb]
        | ok q =>
          obtain ⟨-, rfl⟩ := bind_eq_ok hb
          simp [after, Custody.after, answer, Pool.allocateFor, hl, hb]
      all_goals simp [after, Custody.after, answer, events, Request.draw?, hl, mintedBy]
  | release v =>
    cases hr : l.custody.pool.release v with
    | error e =>
      have hl : l.custody.pool.lookup v = none := by
        rw [Pool.release] at hr
        split at hr
        · cases hr
        · assumption
      refine .rests [] ?_ ?_ ?_ ?_ ?_ <;>
        simp [after, Custody.after, answer, events, Request.draw?, hr, hl]
    | ok r =>
      obtain ⟨s, q⟩ := r
      obtain ⟨hl, -, hf, -⟩ := release_eq_ok hr
      refine .rests [s] ?_ ?_ ?_ ?_ ?_ <;>
        simp [after, Custody.after, answer, events, Request.draw?, hr, hl, hf, Event.minted?]
  | recycle s =>
    cases hr : l.custody.pool.recycle s with
    | error e =>
      refine .rests [] ?_ ?_ ?_ ?_ ?_ <;>
        simp [after, Custody.after, answer, events, Request.draw?, hr]
    | ok q =>
      obtain ⟨-, rfl⟩ := recycle_eq_ok hr
      refine .rests [s] ?_ ?_ ?_ ?_ ?_ <;>
        simp [after, Custody.after, answer, events, Request.draw?, hr]

/-! ### What a ledger tells -/

/-- The ledger tells of each slot what it was last handed out for. -/
structure Traced (l : Ledger) : Prop where
  accounted : l.custody.Accounted
  minted : l.mints.map Prod.fst = l.custody.minted
  /-- Slots to hand out again have come back. -/
  free : ∀ s ∈ l.custody.pool.free, s ∈ l.returned
  /-- A slot that was made for a request that shares has served no others. -/
  shared : ∀ s, (s, .shared) ∈ l.mints → l.issues.lookup s = some .shared
  /-- A slot that was made for a request of its own serves no other one before it comes back. -/
  exclusive : ∀ s, (s, .exclusive) ∈ l.mints → s ∉ l.returned → l.issues.lookup s = some .exclusive

namespace Traced

variable {l l' : Ledger} {request : Request}

theorem mem_minted (h : l.Traced) {s : Slot} {mode : Mode} (hs : (s, mode) ∈ l.mints) :
    s ∈ l.custody.minted := h.minted ▸ List.mem_map_of_mem hs

/-- The slot with the next serial is a new one. -/
theorem ne_next (h : l.Traced) {s : Slot} {mode : Mode} (hs : (s, mode) ∈ l.mints) (kind : Kind) :
    s ≠ ⟨kind, l.custody.pool.next⟩ := by
  rintro rfl
  exact absurd (h.accounted.serial_lt (h.mem_minted hs)) (Nat.lt_irrefl _)

/-- A permitted call keeps the ledger straight. -/
theorem after (h : l.Traced) (hp : l.custody.Permits request) : (l.after request).Traced := by
  have haccounted := h.accounted.after hp
  cases turn_after l request with
  | reuses kind s hfound hfree hminted hissues hmints hreturned =>
    have hs : s ∈ l.custody.pool.free := (reusable?_eq_some hfound).2.1
    refine ⟨haccounted, ?_, fun x hx => ?_, fun x hx => ?_, fun x hx hback => ?_⟩
    · rw [hmints, hminted, h.minted]
    · rw [hreturned]
      exact h.free x (List.erase_subset (hfree ▸ hx))
    · rw [hissues, lookup_cons_eq, h.shared x (hmints ▸ hx), ite_self]
    · rw [hreturned] at hback
      have hne : x ≠ s := fun e => hback (e ▸ h.free s hs)
      rw [hissues, lookup_cons_eq, if_neg hne, h.exclusive x (hmints ▸ hx) hback]
  | mints kind mode _ hfree hminted hissues hmints hreturned =>
    refine ⟨haccounted, ?_, fun x hx => ?_, fun x hx => ?_, fun x hx hback => ?_⟩
    · rw [hmints, hminted, List.map_cons, h.minted]
    · rw [hreturned]
      exact h.free x (hfree ▸ hx)
    · rw [hissues, lookup_cons_eq]
      rcases List.mem_cons.1 (hmints ▸ hx) with he | hx
      · obtain ⟨rfl, rfl⟩ := Prod.mk.inj he
        exact if_pos rfl
      · rw [if_neg (h.ne_next hx kind), h.shared x hx]
    · rw [hissues, lookup_cons_eq]
      rcases List.mem_cons.1 (hmints ▸ hx) with he | hx
      · obtain ⟨rfl, rfl⟩ := Prod.mk.inj he
        exact if_pos rfl
      · rw [if_neg (h.ne_next hx kind), h.exclusive x hx (hreturned ▸ hback)]
  | rests back hfree hminted hissues hmints hreturned =>
    refine ⟨haccounted, ?_, fun x hx => ?_, fun x hx => ?_, fun x hx hback => ?_⟩
    · rw [hmints, hminted, h.minted]
    · rw [hfree, List.mem_append] at hx
      rw [hreturned, List.mem_append]
      exact hx.imp id (h.free x)
    · rw [hissues]
      exact h.shared x (hmints ▸ hx)
    · rw [hreturned, List.mem_append, not_or] at hback
      rw [hissues]
      exact h.exclusive x (hmints ▸ hx) hback.2

end Traced

/-! ### Runs -/

variable {l : Ledger} {requests : List Request} {kind : Kind}

end Ledger

end LoopTrace.Pool
