import LoopTrace.Proofs.Validity
import Mathlib.Data.Nat.Find

/-!
# Well-formed traces by positions

What a well-formed trace is, said of the positions of its streams and without an order in which
anything is checked: a rule for an instruction at a position speaks of that position and of the earlier
ones only (`InOrder`). The check accepts exactly the well-formed traces. One whose states are in order
it rejects for the first position at which a rule fails, and what it reports is true of that position
(`Flaw`).
-/

namespace LoopTrace.Trace

/-- The instruction has as many operands as it takes; a guard compares values. -/
def Value.HasArity : Value → Prop
  | .operation op operands => operands.length = op.arity
  | .call method operands _ | .inlinedCall method operands =>
    operands.length = method.parameters.length
  | .guard kind _ _ _ _ => kind ≠ .void
  | _ => True

variable (t : Trace)

/-- A value stands in the streams before a position. -/
def Before (i : Nat) (u : ValueId) : Prop := ∃ j < i, t.stream[j]? = some u

/-- The value may be used by the instruction at a position. -/
structure UsableAt (i : Nat) (u : ValueId) (w : Value) : Prop where
  exist : t.get? u = some w
  defined : w.isLeaf ∨ t.Before i u
  kind : w = .untracked ∨ w.kind ≠ .void

/-- The operands that are tracked are of the kinds that are demanded in their places. -/
def HaveKinds (ids : List ValueId) (kinds : List Kind) : Prop :=
  ∀ (place : Nat) (u : ValueId) (kind : Kind), ids[place]? = some u → kinds[place]? = some kind →
    ∃ w, t.get? u = some w ∧ (w = .untracked ∨ w.kind = kind)

/-- The instruction `v`, which is known as `id`, keeps the rules at a position. -/
structure InOrder (i : Nat) (id : ValueId) (v : Value) : Prop where
  exist : t.get? id = some v
  uses : ∀ u ∈ v.uses, ∃ w, t.UsableAt i u w
  arity : v.HasArity
  kinds : ∀ kinds, v.operandKinds? = some kinds → t.HaveKinds v.operands kinds

/-- A trace that keeps all the rules. -/
structure WellFormed : Prop where
  lengths : t.entry.length = t.tail.length
  entry : ∀ id ∈ t.entry, ∃ n kind flags, t.get? id = some (.atEntry n kind flags)
  stream : ∀ (i : Nat) (id : ValueId), t.stream[i]? = some id → ∃ v, t.InOrder i id v
  once : ∀ (i j : Nat) (id : ValueId), t.stream[i]? = some id → t.stream[j]? = some id → i = j
  tail : ∀ id ∈ t.tail, ∃ v, t.get? id = some v ∧ (v.isLeaf ∨ ∃ i : Nat, t.stream[i]? = some id)

/-- Nothing is wrong at a position: the instruction that stands there keeps the rules and has not stood
in the streams before. -/
def KeptAt (i : Nat) : Prop :=
  ∀ id, t.stream[i]? = some id → ¬ t.Before i id ∧ ∃ v, t.InOrder i id v

/-- What may be wrong at a position where `id` stands. -/
inductive Flaw (i : Nat) (id : ValueId) : Malformed → Prop
  | missing (h : t.get? id = none) : Flaw i id (.dangling id)
  | missingUse {v : Value} {u : ValueId} (hv : t.get? id = some v) (hu : u ∈ v.uses)
      (h : t.get? u = none) : Flaw i id (.dangling u)
  | void {v w : Value} {u : ValueId} (hv : t.get? id = some v) (hu : u ∈ v.uses)
      (hw : t.get? u = some w) (hkind : w.kind = .void) (hne : w ≠ .untracked) :
      Flaw i id (.useOfVoid id u)
  | early {v w : Value} {u : ValueId} (hv : t.get? id = some v) (hu : u ∈ v.uses)
      (hw : t.get? u = some w) (hleaf : w.isLeaf = false) (hbefore : ¬ t.Before i u) :
      Flaw i id (.useBeforeDefinition id u)
  | operation {op : Operation} {operands : List ValueId}
      (hv : t.get? id = some (.operation op operands)) (h : operands.length ≠ op.arity) :
      Flaw i id (.arity id op.mnemonic op.arity operands.length)
  | call {method : Signature} {operands : List ValueId} {frame : Option (Frame ValueId)}
      (hv : t.get? id = some (.call method operands frame))
      (h : operands.length ≠ method.parameters.length) :
      Flaw i id (.arity id method.qualifiedName method.parameters.length operands.length)
  | inlinedCall {method : Signature} {operands : List ValueId}
      (hv : t.get? id = some (.inlinedCall method operands))
      (h : operands.length ≠ method.parameters.length) :
      Flaw i id (.arity id method.qualifiedName method.parameters.length operands.length)
  | guard {comparator : Comparator} {left right : ValueId} {frame : Option (Frame ValueId)}
      (hv : t.get? id = some (.guard .void comparator left right frame)) : Flaw i id (.voidGuard id)
  | operandKind {v w : Value} {kinds : List Kind} {place : Nat} {u : ValueId} {kind : Kind}
      (hv : t.get? id = some v) (hkinds : v.operandKinds? = some kinds)
      (hu : v.operands[place]? = some u) (hkind : kinds[place]? = some kind)
      (hw : t.get? u = some w) (hne : w ≠ .untracked) (h : w.kind ≠ kind) :
      Flaw i id (.operandKind id place kind w.kind)
  | repeated (h : t.Before i id) : Flaw i id (.duplicate id)

variable {t}

/-! ### Positions and what stands before them -/

theorem before_iff {i : Nat} {u : ValueId} : t.Before i u ↔ u ∈ t.stream.take i := by
  simp [Before, List.mem_iff_getElem?, List.getElem?_take]

theorem eq_take_append_cons {α : Type} {l : List α} {i : Nat} {a : α} (h : l[i]? = some a) :
    l = l.take i ++ a :: l.drop (i + 1) := by
  obtain ⟨hi, rfl⟩ := List.getElem?_eq_some_iff.1 h
  rw [← List.drop_eq_getElem_cons hi, List.take_append_drop]

theorem checkArity_eq_ok_iff {id : ValueId} {v : Value} : checkArity id v = .ok () ↔ v.HasArity := by
  cases v with
  | guard kind _ _ _ _ => cases kind <;> simp [checkArity, Value.HasArity]
  | _ => simp [checkArity, Value.HasArity]

theorem haveKinds_cons {id : ValueId} {ids : List ValueId} {kind : Kind} {kinds : List Kind} :
    t.HaveKinds (id :: ids) (kind :: kinds) ↔
      (∃ w, t.get? id = some w ∧ (w = .untracked ∨ w.kind = kind)) ∧ t.HaveKinds ids kinds := by
  constructor
  · exact fun h => ⟨h 0 id kind rfl rfl, fun place u kind hu hk => h (place + 1) u kind hu hk⟩
  · rintro ⟨hfirst, hrest⟩ (_ | place) u kind' hu hk
    · obtain rfl : id = u := Option.some.inj hu
      obtain rfl : kind = kind' := Option.some.inj hk
      exact hfirst
    · exact hrest place u kind' hu hk

theorem checkKinds_eq_ok_iff {user : ValueId} {place : Nat} {ids : List ValueId} {kinds : List Kind} :
    t.checkKinds user place ids kinds = .ok () ↔ t.HaveKinds ids kinds := by
  induction ids generalizing place kinds with
  | nil => simp [checkKinds, HaveKinds]
  | cons id ids ih =>
    cases kinds with
    | nil => simp [checkKinds, HaveKinds]
    | cons kind kinds =>
      rw [haveKinds_cons, checkKinds, fetch]
      cases hw : t.get? id with
      | none => simp [bind, Except.bind]
      | some w =>
        by_cases h : w = .untracked ∨ w.kind = kind
        · simp [bind, Except.bind, h, ih]
        · simp [bind, Except.bind, h]

theorem usable_iff {i : Nat} {u : ValueId} :
    t.Usable (t.stream.take i) u ↔ ∃ w, t.UsableAt i u w := by
  refine exists_congr fun w => ⟨fun ⟨hw, hvoid, hdef⟩ => ⟨hw, ?_, ?_⟩, fun h => ⟨h.exist, ?_, ?_⟩⟩
  · exact hdef.imp_right before_iff.2
  · by_cases hk : w.kind = .void
    · exact Or.inl (hvoid hk)
    · exact Or.inr hk
  · exact fun hk => h.kind.resolve_right fun hne => hne hk
  · exact h.defined.imp_right before_iff.1

theorem placed_iff {i : Nat} {id : ValueId} {v : Value} :
    t.Placed (t.stream.take i) id v ↔ ¬ t.Before i id ∧ t.InOrder i id v := by
  have hkinds : t.checkKinds id 0 v.operands (v.operandKinds?.getD []) = .ok () ↔
      ∀ kinds, v.operandKinds? = some kinds → t.HaveKinds v.operands kinds := by
    rw [checkKinds_eq_ok_iff]
    cases v.operandKinds? <;> simp [HaveKinds]
  constructor
  · intro h
    refine ⟨fun hb => h.fresh (before_iff.1 hb), h.value, fun u hu => usable_iff.1 (h.uses u hu), ?_, ?_⟩
    · exact checkArity_eq_ok_iff.1 h.arity
    · exact hkinds.1 h.kinds
  · rintro ⟨hb, h⟩
    refine ⟨h.exist, fun u hu => usable_iff.2 (h.uses u hu), ?_, ?_, fun hm => hb (before_iff.2 hm)⟩
    · exact checkArity_eq_ok_iff.2 h.arity
    · exact hkinds.2 h.kinds

theorem keptAt_iff {i : Nat} {id : ValueId} (h : t.stream[i]? = some id) :
    t.KeptAt i ↔ ∃ v, t.Placed (t.stream.take i) id v := by
  simp only [placed_iff, exists_and_left, KeptAt, h, Option.some.injEq, forall_eq']

theorem stream_iff :
    (∀ pre id post, t.stream = pre ++ id :: post → ∃ v, t.Placed pre id v) ↔ ∀ i, t.KeptAt i := by
  constructor
  · exact fun h i id hi => (keptAt_iff hi).2 (h _ id _ (eq_take_append_cons hi)) id hi
  · intro h pre id post he
    have hi : t.stream[pre.length]? = some id := by simp [he]
    have hpre : t.stream.take pre.length = pre := by simp [he]
    exact hpre ▸ (keptAt_iff hi).1 (h pre.length)

theorem accepted_iff : t.Accepted ↔ t.WellFormed := by
  have hmem : ∀ id, id ∈ t.stream ↔ ∃ i : Nat, t.stream[i]? = some id := fun id => List.mem_iff_getElem?
  constructor
  · intro h
    have hkept := stream_iff.1 h.stream
    refine ⟨h.lengths, h.entry, fun i id hi => (hkept i id hi).2, fun i j id hi hj => ?_, ?_⟩
    · rcases Nat.lt_trichotomy i j with hlt | he | hlt
      · exact absurd ⟨i, hlt, hi⟩ (hkept j id hj).1
      · exact he
      · exact absurd ⟨j, hlt, hj⟩ (hkept i id hi).1
    · simpa only [hmem] using h.tail
  · intro h
    refine ⟨h.lengths, h.entry, stream_iff.2 fun i id hi => ⟨?_, h.stream i id hi⟩, ?_⟩
    · rintro ⟨j, hlt, hj⟩
      exact absurd (h.once i j id hi hj) (Nat.ne_of_gt hlt)
    · simpa only [hmem] using h.tail

/-! ### What is reported -/

theorem fetch_eq_error {id : ValueId} {why : Malformed} (h : t.fetch id = .error why) :
    t.get? id = none ∧ why = .dangling id := by
  rw [fetch] at h
  cases hv : t.get? id with
  | none => exact ⟨rfl, by rw [hv] at h; exact (Except.error.inj h).symm⟩
  | some v => rw [hv] at h; cases h

theorem fetch_eq_ok {id : ValueId} {v : Value} (h : t.fetch id = .ok v) : t.get? id = some v := by
  rw [fetch] at h
  cases hv : t.get? id with
  | none => rw [hv] at h; cases h
  | some w => rw [hv] at h; exact congrArg some (Except.ok.inj h)

section Position

variable {i : Nat} {id u : ValueId} {v : Value} {why : Malformed}

theorem checkUse_flaw (hv : t.get? id = some v) (hu : u ∈ v.uses) {seen : List ValueId}
    (hseen : ∀ x, x ∈ seen ↔ t.Before i x) (h : t.checkUse seen id u = .error why) :
    t.Flaw i id why := by
  rcases eq_error_of_bind h with h | ⟨w, hw, h⟩
  · obtain ⟨hnone, rfl⟩ := fetch_eq_error h
    exact .missingUse hv hu hnone
  · have hw := fetch_eq_ok hw
    split_ifs at h with hvoid hdef
    · cases h
      exact .void hv hu hw hvoid.1 hvoid.2
    · cases h
      obtain ⟨hleaf, hmem⟩ := not_or.1 hdef
      exact .early hv hu hw (by simpa using hleaf) fun hb => hmem ((hseen u).2 hb)

theorem checkArity_flaw (hv : t.get? id = some v) (h : checkArity id v = .error why) :
    t.Flaw i id why := by
  cases v with
  | operation op operands =>
    rw [checkArity] at h
    split_ifs at h with hlen
    cases h
    exact .operation hv hlen
  | call method operands frame =>
    rw [checkArity] at h
    split_ifs at h with hlen
    cases h
    exact .call hv hlen
  | inlinedCall method operands =>
    rw [checkArity] at h
    split_ifs at h with hlen
    cases h
    exact .inlinedCall hv hlen
  | guard kind comparator left right frame =>
    cases kind <;> cases h
    exact .guard hv
  | constant _ => cases h
  | atEntry _ _ _ => cases h
  | untracked => cases h

/-- The kinds fail at some place: there is no such value, or it is of another kind. -/
theorem checkKinds_eq_error {user : ValueId} {place : Nat} {ids : List ValueId} {kinds : List Kind}
    (h : t.checkKinds user place ids kinds = .error why) :
    ∃ p u kind, ids[p]? = some u ∧ kinds[p]? = some kind ∧
      ((t.get? u = none ∧ why = .dangling u) ∨ ∃ w, t.get? u = some w ∧ w ≠ .untracked ∧
        w.kind ≠ kind ∧ why = .operandKind user (place + p) kind w.kind) := by
  induction ids generalizing place kinds with
  | nil => cases h
  | cons id ids ih =>
    cases kinds with
    | nil => cases h
    | cons kind kinds =>
      rcases eq_error_of_bind h with h | ⟨w, hw, h⟩
      · exact ⟨0, id, kind, rfl, rfl, Or.inl (fetch_eq_error h)⟩
      · split_ifs at h with hkind
        · obtain ⟨p, u, kind', hu, hk, hwhy⟩ := ih h
          rw [Nat.add_assoc, Nat.add_comm 1 p] at hwhy
          exact ⟨p + 1, u, kind', hu, hk, hwhy⟩
        · cases h
          obtain ⟨hne, hkind⟩ := not_or.1 hkind
          exact ⟨0, id, kind, rfl, rfl, Or.inr ⟨w, fetch_eq_ok hw, hne, hkind, rfl⟩⟩

theorem checkKinds_flaw (hv : t.get? id = some v)
    (h : t.checkKinds id 0 v.operands (v.operandKinds?.getD []) = .error why) : t.Flaw i id why := by
  cases hkinds : v.operandKinds? with
  | none =>
    rw [hkinds] at h
    cases hops : v.operands <;> rw [hops] at h <;> cases h
  | some kinds =>
    rw [hkinds] at h
    obtain ⟨p, u, kind, hu, hk, ⟨hnone, rfl⟩ | ⟨w, hw, hne, hkind, rfl⟩⟩ := checkKinds_eq_error h
    · exact .missingUse hv (List.mem_append_left _ (List.mem_of_getElem? hu)) hnone
    · rw [Nat.zero_add]
      exact .operandKind hv hkinds hu hk hw hne hkind

/-- What the check of an instruction reports is wrong at its position. -/
theorem checkInstruction_flaw {seen : List ValueId} (hseen : ∀ x, x ∈ seen ↔ t.Before i x)
    (h : t.checkInstruction seen id = .error why) : t.Flaw i id why := by
  rcases eq_error_of_bind h with h | ⟨v, hv, h⟩
  · obtain ⟨hnone, rfl⟩ := fetch_eq_error h
    exact .missing hnone
  · have hv := fetch_eq_ok hv
    rcases eq_error_of_bind h with h | ⟨-, -, h⟩
    · obtain ⟨u, hu, h⟩ := exists_of_forM_eq_error h
      exact checkUse_flaw hv hu hseen h
    rcases eq_error_of_bind h with h | ⟨-, -, h⟩
    · exact checkArity_flaw hv h
    rcases eq_error_of_bind h with h | ⟨-, -, h⟩
    · exact checkKinds_flaw hv h
    · split_ifs at h with hid
      cases h
      exact .repeated ((hseen id).1 hid)

end Position

theorem checkStream_append (seen pre rest : List ValueId) :
    t.checkStream seen (pre ++ rest) =
      (t.checkStream seen pre >>= fun _ => t.checkStream (pre.reverse ++ seen) rest) := by
  induction pre generalizing seen with
  | nil => rfl
  | cons id pre ih =>
    rw [List.cons_append, checkStream, checkStream, List.reverse_cons, List.append_assoc]
    cases t.checkInstruction seen id with
    | error why => rfl
    | ok _ => exact ih (id :: seen)

/-- The streams are rejected for the first position at which something is wrong. -/
theorem checkStream_first {i : Nat} (hi : ¬ t.KeptAt i) (hfirst : ∀ j < i, t.KeptAt j) :
    ∃ id why, t.stream[i]? = some id ∧ t.Flaw i id why ∧ t.checkStream [] t.stream = .error why := by
  obtain ⟨id, hid⟩ : ∃ id, t.stream[i]? = some id := by
    by_contra hnone
    exact hi fun id hid => absurd ⟨id, hid⟩ hnone
  have hseen : ∀ x, x ∈ (t.stream.take i).reverse ++ [] ↔ t.Before i x := fun x => by
    rw [List.append_nil, List.mem_reverse, before_iff]
  -- what stands before the position is checked without an error, and then its own turn comes
  have hpre : t.checkStream [] (t.stream.take i) = .ok () := by
    rw [checkStream_eq_ok_iff]
    intro pre x post he
    have hlt : pre.length < i := by
      have := congrArg List.length he
      simp only [List.length_take, List.length_append, List.length_cons] at this
      omega
    have hx : t.stream[pre.length]? = some x := by
      have : (t.stream.take i)[pre.length]? = some x := by simp [he]
      rwa [List.getElem?_take_of_lt hlt] at this
    have htake : t.stream.take pre.length = pre := by
      have := congrArg (List.take pre.length) he
      rwa [List.take_take, Nat.min_eq_left (Nat.le_of_lt hlt), List.take_left] at this
    rw [List.nil_append, ← htake]
    exact (keptAt_iff hx).1 (hfirst _ hlt)
  have hthis : ∃ why, t.checkInstruction ((t.stream.take i).reverse ++ []) id = .error why := by
    cases h : t.checkInstruction ((t.stream.take i).reverse ++ []) id with
    | error why => exact ⟨why, rfl⟩
    | ok _ =>
      obtain ⟨v, hv⟩ := checkInstruction_eq_ok_iff.1 h
      exact absurd ((keptAt_iff hid).2 ⟨v, hv.congr fun x => (hseen x).trans before_iff⟩) hi
  obtain ⟨why, hwhy⟩ := hthis
  refine ⟨id, why, hid, checkInstruction_flaw hseen hwhy, ?_⟩
  rw [eq_take_append_cons hid, checkStream_append, hpre]
  change t.checkStream _ (id :: _) = _
  rw [checkStream, hwhy]
  rfl

/-! ### What the check decides and reports -/

/-- **The check accepts exactly the well-formed traces.** A trace whose states are in order and whose
streams are not, it rejects for the first position at which a rule fails, and for what is wrong
there. -/
theorem check_wellFormed (t : Trace) :
    (t.check = .ok () ↔ t.WellFormed) ∧
    (t.entry.length = t.tail.length →
      (∀ id ∈ t.entry, ∃ n kind flags, t.get? id = some (.atEntry n kind flags)) →
      (∃ i, ¬ t.KeptAt i) →
      ∃ i id why, t.stream[i]? = some id ∧ ¬ t.KeptAt i ∧ (∀ j < i, t.KeptAt j) ∧
        t.Flaw i id why ∧ t.check = .error why) := by
  refine ⟨check_eq_ok_iff.trans accepted_iff, fun hlengths hentry hbroken => ?_⟩
  classical
  have hfirst : ∀ j < Nat.find hbroken, t.KeptAt j := fun j hj => not_not.1 (Nat.find_min hbroken hj)
  obtain ⟨id, why, hid, hflaw, hstream⟩ := checkStream_first (Nat.find_spec hbroken) hfirst
  refine ⟨_, id, why, hid, Nat.find_spec hbroken, hfirst, hflaw, ?_⟩
  rw [check, if_pos hlengths, checkEntry_eq_ok_iff.2 hentry, hstream]
  rfl

/-- The second instruction uses the third one, which comes too late, and the first one stands there
again at the end. -/
def jumbled : Trace where
  anchor := ⟨"Sample", "jumbled", [.int], .void, .managed⟩
  position := 0
  values := #[.atEntry 0 .int ⟨true, false⟩, .operation .intNeg [⟨0⟩], .operation .intAdd [⟨1⟩, ⟨3⟩],
    .operation .intNeg [⟨0⟩]]
  prologue := []
  body := [⟨1⟩, ⟨2⟩, ⟨3⟩, ⟨1⟩]
  entry := [⟨0⟩]
  tail := [⟨0⟩]

theorem check_wellFormed_jumbled :
    ∃ i id why, jumbled.stream[i]? = some id ∧ ¬ jumbled.KeptAt i ∧ (∀ j < i, jumbled.KeptAt j) ∧
      jumbled.Flaw i id why ∧ jumbled.check = .error why := by
  refine (check_wellFormed jumbled).2 rfl ?_ ⟨3, fun h => ?_⟩
  · intro id hid
    obtain rfl := List.mem_singleton.1 hid
    exact ⟨0, .int, ⟨true, false⟩, rfl⟩
  · exact (h ⟨1⟩ rfl).1 ⟨0, by decide, rfl⟩

end LoopTrace.Trace
