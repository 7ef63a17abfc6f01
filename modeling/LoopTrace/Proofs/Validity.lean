import LoopTrace.Trace.Validity
import LoopTrace.Proofs.Tables
import Mathlib.Data.List.Induction

/-!
# What the check of a trace tells

The rules that an accepted trace keeps, by positions: of an instruction of the streams only what
stands before it counts. The checks go over the streams with the instructions seen so far;
`Accepted` says the same without them (`check_eq_ok_iff`).

Three of the rules are about how a trace is kept and not about what it computes: the lengths of its
states, the locals of its entry state, and that no instruction stands in the streams twice. A trace that
keeps these is not rejected for any of them, whatever else is wrong with it (`check_spares`).
-/

namespace LoopTrace.Trace

variable (t : Trace)

/-- A value may be used after the instructions of `seen`. -/
def Usable (seen : List ValueId) (u : ValueId) : Prop :=
  ∃ v, t.get? u = some v ∧ (v.kind = .void → v = .untracked) ∧ (v.isLeaf ∨ u ∈ seen)

/-- An instruction may stand after those of `seen`. -/
structure Placed (seen : List ValueId) (id : ValueId) (v : Value) : Prop where
  value : t.get? id = some v
  uses : ∀ u ∈ v.uses, t.Usable seen u
  arity : checkArity id v = .ok ()
  kinds : t.checkKinds id 0 v.operands (v.operandKinds?.getD []) = .ok ()
  fresh : id ∉ seen

/-- The rules for a trace. -/
structure Accepted : Prop where
  lengths : t.entry.length = t.tail.length
  entry : ∀ id ∈ t.entry, ∃ n kind flags, t.get? id = some (.atEntry n kind flags)
  stream : ∀ pre id post, t.stream = pre ++ id :: post → ∃ v, t.Placed pre id v
  tail : ∀ id ∈ t.tail, ∃ v, t.get? id = some v ∧ (v.isLeaf ∨ id ∈ t.stream)

variable {t}

theorem checkEntry_eq_ok_iff {place : Nat} {ids : List ValueId} :
    t.checkEntry place ids = .ok () ↔
      ∀ id ∈ ids, ∃ n kind flags, t.get? id = some (.atEntry n kind flags) := by
  induction ids generalizing place with
  | nil => simp [checkEntry]
  | cons id ids ih =>
    rw [checkEntry, fetch, List.forall_mem_cons]
    cases hv : t.get? id with
    | none => simp [bind, Except.bind]
    | some v => cases v <;> simp [bind, Except.bind, ih]

theorem checkUse_eq_ok_iff {seen : List ValueId} {user u : ValueId} :
    t.checkUse seen user u = .ok () ↔ t.Usable seen u := by
  rw [checkUse, fetch, Usable]
  cases hv : t.get? u with
  | none => simp [bind, Except.bind]
  | some v =>
    by_cases hvoid : v.kind = .void ∧ v ≠ .untracked
    · simp [bind, Except.bind, hvoid]
    · by_cases hdef : v.isLeaf = true ∨ u ∈ seen
      · have hv : v.kind = .void → v = .untracked := by simpa using hvoid
        simp only [bind, Except.bind, if_neg hvoid, if_pos hdef, true_iff]
        exact ⟨v, rfl, hv, hdef⟩
      · simp only [bind, Except.bind, if_neg hvoid, if_neg hdef, reduceCtorEq, false_iff]
        rintro ⟨v', he, -, hd⟩
        exact hdef (Option.some.inj he ▸ hd)

theorem checkInstruction_eq_ok_iff {seen : List ValueId} {id : ValueId} :
    t.checkInstruction seen id = .ok () ↔ ∃ v, t.Placed seen id v := by
  rw [checkInstruction, fetch]
  cases hv : t.get? id with
  | none =>
    simp only [bind, Except.bind, reduceCtorEq, false_iff]
    rintro ⟨v, hp⟩
    rw [hp.value] at hv
    cases hv
  | some v =>
    constructor
    · intro h
      cases h₁ : v.uses.forM (t.checkUse seen id) with
      | error e => simp [bind, Except.bind, h₁] at h
      | ok u =>
        cases h₂ : checkArity id v with
        | error e => simp [bind, Except.bind, h₁, h₂] at h
        | ok u =>
          cases h₃ : t.checkKinds id 0 v.operands (v.operandKinds?.getD []) with
          | error e => simp [bind, Except.bind, h₁, h₂, h₃] at h
          | ok u =>
            have hfresh : id ∉ seen := by simpa [bind, Except.bind, h₁, h₂, h₃] using h
            exact ⟨v, hv, fun u hu => checkUse_eq_ok_iff.1 (forM_eq_ok_iff.1 h₁ u hu),
              h₂, h₃, hfresh⟩
    · rintro ⟨v', hp⟩
      obtain rfl : v = v' := Option.some.inj (hv.symm.trans hp.value)
      have h₁ : v.uses.forM (t.checkUse seen id) = .ok () :=
        forM_eq_ok_iff.2 fun u hu => checkUse_eq_ok_iff.2 (hp.uses u hu)
      simp [bind, Except.bind, h₁, hp.arity, hp.kinds, hp.fresh]

theorem Placed.congr {seen seen' : List ValueId} (h : ∀ x, x ∈ seen ↔ x ∈ seen')
    {id : ValueId} {v : Value} (hp : t.Placed seen id v) : t.Placed seen' id v where
  value := hp.value
  uses u hu := by
    obtain ⟨w, hw, hvoid, hdef⟩ := hp.uses u hu
    exact ⟨w, hw, hvoid, hdef.imp (fun hl => hl) (h u).1⟩
  arity := hp.arity
  kinds := hp.kinds
  fresh hid := hp.fresh ((h id).2 hid)

theorem checkStream_eq_ok_iff {seen ids : List ValueId} :
    t.checkStream seen ids = .ok () ↔
      ∀ pre id post, ids = pre ++ id :: post → ∃ v, t.Placed (seen ++ pre) id v := by
  induction ids generalizing seen with
  | nil => simp [checkStream]
  | cons id ids ih =>
    have hbind : t.checkStream seen (id :: ids) = .ok () ↔
        t.checkInstruction seen id = .ok () ∧ t.checkStream (id :: seen) ids = .ok () := by
      rw [checkStream]
      cases t.checkInstruction seen id <;> simp [bind, Except.bind]
    have hmem : ∀ pre x, x ∈ id :: seen ++ pre ↔ x ∈ seen ++ id :: pre := by
      intro pre x
      simp only [List.mem_append, List.mem_cons]
      tauto
    rw [hbind, checkInstruction_eq_ok_iff, ih]
    constructor
    · rintro ⟨hfirst, hrest⟩ pre id' post he
      cases pre with
      | nil =>
        obtain ⟨rfl, rfl⟩ := List.cons.inj he
        rwa [List.append_nil]
      | cons x pre =>
        obtain ⟨rfl, rfl⟩ := List.cons.inj he
        obtain ⟨v, hv⟩ := hrest pre id' post rfl
        exact ⟨v, hv.congr (hmem pre)⟩
    · intro h
      refine ⟨by simpa using h [] id ids rfl, fun pre id' post he => ?_⟩
      obtain ⟨v, hv⟩ := h (id :: pre) id' post (by rw [he]; rfl)
      exact ⟨v, hv.congr fun x => (hmem pre x).symm⟩

theorem checkTail_eq_ok_iff {place : Nat} {ids : List ValueId} :
    t.checkTail place ids = .ok () ↔ ∀ id ∈ ids, ∃ v, t.get? id = some v ∧
      (v.isLeaf ∨ id ∈ t.stream) := by
  induction ids generalizing place with
  | nil => simp [checkTail]
  | cons id ids ih =>
    rw [checkTail, fetch, List.forall_mem_cons]
    cases hv : t.get? id with
    | none => simp [bind, Except.bind]
    | some v =>
      by_cases h : v.isLeaf = true ∨ id ∈ t.stream
      · simp [bind, Except.bind, h, ih]
      · simp [bind, Except.bind, h]

/-- **What the check decides**: it accepts exactly the traces that keep the rules. -/
theorem check_eq_ok_iff : t.check = .ok () ↔ t.Accepted := by
  have hiff : t.check = .ok () ↔ t.entry.length = t.tail.length ∧ t.checkEntry 0 t.entry = .ok () ∧
      t.checkStream [] t.stream = .ok () ∧ t.checkTail 0 t.tail = .ok () := by
    rw [check]
    by_cases hl : t.entry.length = t.tail.length
    · cases h₁ : t.checkEntry 0 t.entry with
      | error e => simp [bind, Except.bind, hl]
      | ok u =>
        cases h₂ : t.checkStream [] t.stream <;> simp [bind, Except.bind, hl]
    · simp [bind, Except.bind, hl]
  rw [hiff, checkEntry_eq_ok_iff, checkStream_eq_ok_iff, checkTail_eq_ok_iff]
  exact ⟨fun ⟨h₁, h₂, h₃, h₄⟩ => ⟨h₁, h₂, by simpa using h₃, h₄⟩,
    fun h => ⟨h.lengths, h.entry, by simpa using h.stream, h.tail⟩⟩

namespace Accepted

/-- Of distinct locals each has one value at the tail. -/
theorem nodup_keys (h : t.Accepted) (hnd : t.entry.Nodup) :
    ((t.entry.zip t.tail).map Prod.fst).Nodup := by
  rwa [List.map_fst_zip (Nat.le_of_eq h.lengths)]

theorem nodup_stream (h : t.Accepted) : t.stream.Nodup := by
  have haux : ∀ l : List ValueId, (∀ pre id post, l = pre ++ id :: post → id ∉ pre) → l.Nodup := by
    intro l
    induction l using List.reverseRecOn with
    | nil => simp
    | append_singleton l a ih =>
      intro hl
      refine List.nodup_append.2 ⟨ih fun pre id post he => hl pre id (post ++ [a])
        (by rw [he]; simp), by simp, fun x hx y hy he => ?_⟩
      obtain rfl := List.mem_singleton.1 hy
      exact hl l y [] (by simp) (he ▸ hx)
  refine haux _ fun pre id post he => ?_
  obtain ⟨v, hv⟩ := h.stream pre id post he
  exact hv.fresh

end Accepted

/-! ### Rules that are not broken -/

/-- Whether the rule is about how a trace is kept. -/
def Malformed.isOfRecord : Malformed → Bool
  | .stateLengths .. | .notALocal .. | .duplicate _ => true
  | _ => false

/-- A check that breaks no rule about how a trace is kept. -/
def Spares {α : Type} (x : Except Malformed α) : Prop := ∀ why, x = .error why → why.isOfRecord = false

namespace Spares

variable {α β : Type}

theorem ok (a : α) : Spares (.ok a) := fun _ h => nomatch h

theorem error {why : Malformed} (h : why.isOfRecord = false) : Spares (.error why : Except Malformed α) :=
  fun _ he => Except.error.inj he ▸ h

theorem bind {x : Except Malformed α} {f : α → Except Malformed β} (hx : Spares x)
    (hf : ∀ a, x = .ok a → Spares (f a)) : Spares (x >>= f) := by
  cases x with
  | error why => exact error (hx why rfl)
  | ok a => exact hf a rfl

theorem forM {f : α → Except Malformed Unit} {l : List α} (h : ∀ a, Spares (f a)) :
    Spares (l.forM f) := by
  induction l with
  | nil => exact ok ()
  | cons a l ih => exact (h a).bind fun _ _ => ih

end Spares

theorem fetch_spares (t : Trace) (id : ValueId) : Spares (t.fetch id) := by
  rw [fetch]
  cases t.get? id with
  | none => exact .error rfl
  | some v => exact .ok v

theorem checkUse_spares (t : Trace) (seen : List ValueId) (user value : ValueId) :
    Spares (t.checkUse seen user value) := by
  refine (t.fetch_spares value).bind fun v _ => ?_
  split_ifs
  · exact .error rfl
  · exact .ok ()
  · exact .error rfl

theorem checkArity_spares (id : ValueId) (v : Value) : Spares (checkArity id v) := by
  rw [checkArity.eq_def]
  repeat' split
  all_goals first | exact .ok () | exact .error rfl

theorem checkKinds_spares (t : Trace) (user : ValueId) (place : Nat) (ids : List ValueId)
    (kinds : List Kind) : Spares (t.checkKinds user place ids kinds) := by
  induction ids generalizing place kinds with
  | nil => exact .ok ()
  | cons id ids ih =>
    cases kinds with
    | nil => exact .ok ()
    | cons kind kinds =>
      refine (t.fetch_spares id).bind fun v _ => ?_
      split_ifs
      · exact ih _ _
      · exact .error rfl

theorem checkInstruction_spares (t : Trace) {seen : List ValueId} {id : ValueId} (h : id ∉ seen) :
    Spares (t.checkInstruction seen id) := by
  refine (t.fetch_spares id).bind fun v _ => ?_
  refine (Spares.forM (t.checkUse_spares seen id)).bind fun _ _ => ?_
  refine (checkArity_spares id v).bind fun _ _ => ?_
  refine (t.checkKinds_spares id 0 v.operands _).bind fun _ _ => ?_
  rw [if_neg h]
  exact .ok ()

theorem checkStream_spares (t : Trace) {seen ids : List ValueId} (h : (seen ++ ids).Nodup) :
    Spares (t.checkStream seen ids) := by
  induction ids generalizing seen with
  | nil => exact .ok ()
  | cons id ids ih =>
    have hperm : (seen ++ id :: ids).Perm ((id :: seen) ++ ids) := List.perm_middle
    have hnd := hperm.nodup_iff.1 h
    refine (t.checkInstruction_spares ?_).bind fun _ _ => ih hnd
    exact fun hid => (List.nodup_cons.1 hnd).1 (List.mem_append_left _ hid)

theorem checkTail_spares (t : Trace) (place : Nat) (ids : List ValueId) :
    Spares (t.checkTail place ids) := by
  induction ids generalizing place with
  | nil => exact .ok ()
  | cons id ids ih =>
    refine (t.fetch_spares id).bind fun v _ => ?_
    split_ifs
    · exact ih _
    · exact .error rfl

/-- A trace that is kept as it should be is not rejected for how it is kept. -/
theorem check_spares {t : Trace} (hlengths : t.entry.length = t.tail.length)
    (hentry : ∀ id ∈ t.entry, ∃ n kind flags, t.get? id = some (.atEntry n kind flags))
    (hstream : t.stream.Nodup) : Spares t.check := by
  have hchecked : Spares (t.checkStream [] t.stream) := t.checkStream_spares hstream
  rw [check, if_pos hlengths, checkEntry_eq_ok_iff.2 hentry]
  exact (Spares.ok ()).bind fun _ _ => (Spares.ok ()).bind fun _ _ =>
    hchecked.bind fun _ _ => t.checkTail_spares 0 t.tail

end LoopTrace.Trace
