import LoopTrace.Proofs.Entry
import LoopTrace.Proofs.Runs

/-!
# What a routine is handed

The parameters of a lowered trace take the locals that live on entry, in their order, and one more
value after each wide one. A store holds them if every local that is read is in its slot and all
other parameters, which no value is ever bound to, are what they were.
-/

namespace LoopTrace

variable {V : Type}

namespace Routine

/-- A slot that is no parameter keeps its contents. -/
theorem load_of_not_mem {slots : List Slot} (values : List V) (store : Slot → V) {s : Slot}
    (hs : s ∉ slots) : load slots values store s = store s := by
  induction slots generalizing values store with
  | nil => rfl
  | cons slot slots ih =>
    cases values with
    | nil => rfl
    | cons value values =>
      rw [List.mem_cons, not_or] at hs
      exact (ih values (Function.update store slot value) hs.2).trans
        (Function.update_of_ne hs.1 _ _)

/-- Distinct parameters hold the values that are put into them. -/
theorem map_load {slots : List Slot} {values : List V} (hnd : slots.Nodup)
    (hlen : slots.length = values.length) (store : Slot → V) :
    slots.map (load slots values store) = values := by
  induction slots generalizing values store with
  | nil => exact (List.length_eq_zero_iff.1 hlen.symm).symm
  | cons slot slots ih =>
    cases values with
    | nil => cases hlen
    | cons value values =>
      obtain ⟨hslot, hnd⟩ := List.nodup_cons.1 hnd
      have hfirst : load slots values (Function.update store slot value) slot = value :=
        (load_of_not_mem values _ hslot).trans (Function.update_self _ _ _)
      have hrest := ih hnd (Nat.succ.inj hlen) (Function.update store slot value)
      exact congrArg₂ List.cons hfirst hrest

end Routine

namespace Job

variable {j : Job} {p q : Pool} {ids : List ValueId} {pss : List (List Slot)} {filler : V}
    {env : ValueId → V}

/-- The parameters for a local are as many as the values for it. -/
theorem Receives.length_eq {id : ValueId} {ps : List Slot} (h : j.Receives p id ps q)
    (hid : ∃ n kind flags, j.trace.get? id = some (.atEntry n kind flags)) (filler : V)
    (env : ValueId → V) : ps.length = (env id :: j.trace.fillers filler id).length := by
  obtain ⟨n, kind, flags, hv⟩ := hid
  rw [h.length, Trace.width_of_atEntry hv, Trace.fillers, hv, Kind.width]
  show _ = (env id :: if kind.isWide then [filler] else []).length
  split <;> rfl

theorem Enters.length_eq (h : j.Enters p ids pss q)
    (hids : ∀ id ∈ ids, ∃ n kind flags, j.trace.get? id = some (.atEntry n kind flags)) (filler : V)
    (env : ValueId → V) : pss.flatten.length =
      (ids.flatMap fun id => env id :: j.trace.fillers filler id).length := by
  induction h with
  | nil p => rfl
  | cons first rest ih =>
    rw [List.flatten_cons, List.flatMap_cons, List.length_append, List.length_append,
      first.length_eq (hids _ List.mem_cons_self) filler env, ih fun id hid =>
      hids id (List.mem_cons_of_mem _ hid)]

/-- The parameters for the first local, and those for the others, from what all of them hold. -/
theorem Receives.split {id : ValueId} {ps : List Slot} (h : j.Receives p id ps q)
    (hid : ∃ n kind flags, j.trace.get? id = some (.atEntry n kind flags)) {store : Slot → V}
    (hold : ((ps :: pss).flatten).map store =
      (id :: ids).flatMap fun id => env id :: j.trace.fillers filler id) :
    ps.map store = env id :: j.trace.fillers filler id ∧
      pss.flatten.map store = ids.flatMap fun id => env id :: j.trace.fillers filler id := by
  rw [List.flatten_cons, List.map_append, List.flatMap_cons] at hold
  refine List.append_inj hold ?_
  rw [List.length_map]
  exact h.length_eq hid filler env

/-- A local that is read is in its slot. -/
theorem Enters.store_eq (h : j.Enters p ids pss q)
    (hids : ∀ id ∈ ids, ∃ n kind flags, j.trace.get? id = some (.atEntry n kind flags))
    {store : Slot → V}
    (hold : pss.flatten.map store = ids.flatMap fun id => env id :: j.trace.fillers filler id)
    {id : ValueId} (hid : id ∈ ids) (hr : j.trace.Reads id) {s : Slot} (hs : q.lookup id = some s) :
    store s = env id := by
  induction h with
  | nil p => exact absurd hid List.not_mem_nil
  | @cons p q o u ids ps pss first rest ih =>
    obtain ⟨hfirst, hrest⟩ := first.split (hids u List.mem_cons_self) hold
    by_cases he : id = u
    · subst he
      obtain ⟨s', hhead, hl⟩ := first.read hr
      obtain rfl : s' = s := Option.some.inj ((rest.extension.kept hl).symm.trans hs)
      cases ps with
      | nil => cases hhead
      | cons slot others =>
        obtain rfl := Option.some.inj hhead
        exact (List.cons.inj hfirst).1
    · exact ih (fun id hid => hids id (List.mem_cons_of_mem _ hid)) hrest
        ((List.mem_cons.1 hid).resolve_left he) hs

/-- The parameters for a local hold what is handed over for it, if they did before and only its own
slot has changed. -/
theorem Receives.map_store {id : ValueId} {ps : List Slot} (h : j.Receives p id ps q)
    {store store' : Slot → V} {env' : ValueId → V}
    (hold : ps.map store = env id :: j.trace.fillers filler id)
    (hread : ∀ s, j.trace.Reads id → q.lookup id = some s → store' s = env' id)
    (hunread : ¬ j.trace.Reads id → env' id = env id)
    (hreserved : ∀ s ∈ ps, q.Reserved s → store' s = store s) :
    ps.map store' = env' id :: j.trace.fillers filler id := by
  cases ps with
  | nil => cases hold
  | cons slot others =>
    obtain ⟨hslot, hothers⟩ := List.cons.inj hold
    have hrest : others.map store' = j.trace.fillers filler id := by
      rw [← hothers]
      exact List.map_congr_left fun s hs => hreserved s (List.mem_cons_of_mem _ hs) (h.tail s hs).1
    refine congrArg₂ List.cons ?_ hrest
    by_cases hr : j.trace.Reads id
    · obtain ⟨s, hhead, hl⟩ := h.read hr
      obtain rfl := Option.some.inj hhead
      exact hread slot hr hl
    · rw [hreserved slot List.mem_cons_self (h.unread hr slot List.mem_cons_self).1, hunread hr]
      exact hslot

/-- All parameters hold what is handed over, if they did before and only slots of locals have
changed. -/
theorem Enters.map_store (h : j.Enters p ids pss q)
    (hids : ∀ id ∈ ids, ∃ n kind flags, j.trace.get? id = some (.atEntry n kind flags))
    {store store' : Slot → V} {env' : ValueId → V}
    (hold : pss.flatten.map store = ids.flatMap fun id => env id :: j.trace.fillers filler id)
    (hread : ∀ id ∈ ids, ∀ s, j.trace.Reads id → q.lookup id = some s → store' s = env' id)
    (hunread : ∀ id ∈ ids, ¬ j.trace.Reads id → env' id = env id)
    (hreserved : ∀ s ∈ pss.flatten, q.Reserved s → store' s = store s) :
    pss.flatten.map store' = ids.flatMap fun id => env' id :: j.trace.fillers filler id := by
  induction h with
  | nil p => rfl
  | @cons p q o id ids ps pss first rest ih =>
    obtain ⟨hfirst, hrest⟩ := first.split (hids id List.mem_cons_self) hold
    rw [List.flatten_cons, List.map_append, List.flatMap_cons]
    refine congrArg₂ _ (first.map_store hfirst ?_ (hunread id List.mem_cons_self) ?_)
      (ih ?_ hrest ?_ ?_ ?_)
    · exact fun s hr hs => hread id List.mem_cons_self s hr (rest.extension.kept hs)
    · exact fun s hs hres => hreserved s (List.mem_append_left _ hs) (rest.extension.reserved hres)
    · exact fun u hu => hids u (List.mem_cons_of_mem _ hu)
    · exact fun u hu => hread u (List.mem_cons_of_mem _ hu)
    · exact fun u hu => hunread u (List.mem_cons_of_mem _ hu)
    · exact fun s hs => hreserved s (List.mem_append_right _ hs)

end Job

end LoopTrace
