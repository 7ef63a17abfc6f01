import LoopTrace.Proofs.Chronicle

/-!
# What refused calls leave

Calls of an assembly are refused when they name blocks that there are not, or when they emit a block
again. Each of them but one looks for all that it needs before it changes anything, so that a refusal
leaves the assembly alone. The exception is a link: it enters its origin at the target before it looks for
the origin. A link from a block that there is not to one that there is is refused with half of the edge
made (`Strays`), and nothing else is left by any refusal (`run_refusals`).

Edges have two sides after every run without such links, whatever else is refused in it.
-/

namespace LoopTrace

theorem BlockSet.insert_of_mem {s : BlockSet} {id : BlockId} (h : id ∈ s) : s.insert id = s := by
  rw [insert, dif_pos (mem_toList.2 h)]

namespace Assembly

variable {a a' : Assembly} {call : Call} {origin target : BlockId} {b : Block} {why : Misuse}

/-- All blocks in the order are there. -/
def Grounded (a : Assembly) : Prop := ∀ id ∈ a.order, (a.block? id).isSome

/-- The call links a block that there is not to one that does not list it yet. -/
def Strays (a : Assembly) : Call → Prop
  | .link origin target =>
    a.block? origin = none ∧ ∃ b, a.block? target = some b ∧ origin ∉ b.predecessors
  | _ => False

/-- The assembly with the target's side of an edge. -/
def withOrigin (a : Assembly) (origin target : BlockId) : Assembly :=
  a.modify target fun b => { b with predecessors := b.predecessors.insert origin }

/-! ### Links -/

theorem link_of_target_none (h : a.block? target = none) :
    a.link origin target = (.error (.unknownBlock target), a) := by
  rw [link, h]
  rfl

theorem link_of_origin_none (ho : a.block? origin = none) (ht : a.block? target = some b) :
    a.link origin target = (.error (.unknownBlock origin), a.withOrigin origin target) := by
  have ho' : (a.withOrigin origin target).block? origin = none := by
    rw [withOrigin, block?_modify, ho]
    split_ifs <;> rfl
  rw [withOrigin] at ho'
  rw [link, ht]
  simp only [Option.isNone_some, Bool.false_eq_true, if_false, ho', Option.isNone_none, if_true]
  rfl

/-- An edit that leaves its block alone leaves the assembly alone. -/
theorem modify_eq_self (hb : a.block? target = some b) {f : Block → Block} (hf : f b = b) :
    a.modify target f = a := by
  have harena : a.arena.modify target.index f = a.arena := by
    refine List.ext_getElem? fun i => ?_
    rw [List.getElem?_modify]
    by_cases hi : target.index = i
    · subst hi
      have hb' : a.arena[target.index]? = some b := hb
      simp [hb', hf]
    · simp [hi]
  rw [modify, harena]

/-- Half an edge changes the target unless it is there already. -/
theorem withOrigin_eq_iff (ht : a.block? target = some b) :
    a.withOrigin origin target = a ↔ origin ∈ b.predecessors := by
  constructor
  · intro h
    have hb : (a.withOrigin origin target).block? target =
        some { b with predecessors := b.predecessors.insert origin } := by
      rw [withOrigin, block?_modify, if_pos rfl, ht]
      rfl
    rw [h, ht] at hb
    have hpre : b.predecessors = b.predecessors.insert origin :=
      congrArg Block.predecessors (Option.some.inj hb)
    rw [hpre, BlockSet.mem_insert]
    exact Or.inr rfl
  · intro h
    exact modify_eq_self ht (by rw [BlockSet.insert_of_mem h])

/-! ### One call -/

/-- What a refusal leaves: the assembly as it was, or half an edge. -/
theorem answer_refused (hg : a.Grounded) (h : (a.answer call).1 = .refused why) :
    (a.answer call).2 = a ∨ ∃ origin target b, call = .link origin target ∧ a.block? origin = none ∧
      a.block? target = some b ∧ (a.answer call).2 = a.withOrigin origin target := by
  cases call with
  | create role => cases h
  | emit id linked =>
    rw [answer] at h ⊢
    cases hb : a.block? id with
    | none => simp [emit, hb]
    | some b =>
      cases hs : b.serial with
      | some n => simp [emit_twice hb (by rw [hs]; rfl)]
      | none => simp [emit_eq hb hs hg] at h
  | emitUnlessEmpty id linked =>
    rw [answer] at h ⊢
    cases hb : a.block? id with
    | none => simp [emitUnlessEmpty, hb]
    | some b =>
      cases hcode : b.code.isEmpty with
      | true => simp [emitUnlessEmpty, hb, hcode]
      | false =>
        cases hs : b.serial with
        | some n => simp [emitUnlessEmpty, hb, hcode, emit_twice hb (by rw [hs]; rfl)]
        | none => simp [emitUnlessEmpty, hb, hcode, emit_eq hb hs hg] at h
  | link origin target =>
    rw [answer] at h ⊢
    cases ht : a.block? target with
    | none => simp [link_of_target_none ht]
    | some b =>
      cases ho : a.block? origin with
      | none => exact Or.inr ⟨origin, target, b, rfl, ho, ht, by rw [link_of_origin_none ho ht]⟩
      | some c => simp [link_eq (by rw [ho]; rfl) (by rw [ht]; rfl)] at h
  | prependTo id code =>
    rw [answer] at h ⊢
    cases hb : a.prependTo id code with
    | error e => exact Or.inl rfl
    | ok q => simp [hb] at h
  | prepend code =>
    rw [answer] at h ⊢
    cases hb : a.prepend code with
    | error e => exact Or.inl rfl
    | ok q => simp [hb] at h
  | resolveJumps id header =>
    rw [answer] at h ⊢
    cases hb : a.resolveJumps id header with
    | error e => exact Or.inl rfl
    | ok q => simp [hb] at h

/-- **One refusal** changes the assembly exactly if the call strays. -/
theorem answer_eq_self_iff (hg : a.Grounded) (h : (a.answer call).1 = .refused why) :
    (a.answer call).2 = a ↔ ¬ a.Strays call := by
  constructor
  · intro heq hs
    cases call with
    | link origin target =>
      obtain ⟨ho, b, ht, hno⟩ := hs
      rw [answer, link_of_origin_none ho ht] at heq
      exact hno ((withOrigin_eq_iff ht).1 heq)
    | _ => exact hs
  · intro hs
    rcases answer_refused hg h with heq | ⟨origin, target, b, rfl, ho, ht, heq⟩
    · exact heq
    · rw [heq, withOrigin_eq_iff ht]
      by_contra hno
      exact hs ⟨ho, b, ht, hno⟩

/-- A call that is not refused does what its answer tells. -/
theorem effect_of_accepted (hg : a.Grounded) (h : ∀ why, (a.answer call).1 ≠ .refused why) :
    Effect a ⟨call, (a.answer call).1⟩ (a.answer call).2 := by
  cases call with
  | create role => exact .create a role
  | emit id linked =>
    cases hb : a.block? id with
    | none => exact absurd (by simp [answer, emit, hb]) (h (.unknownBlock id))
    | some b => exact effect_emit hb hg linked
  | emitUnlessEmpty id linked =>
    cases hb : a.block? id with
    | none => exact absurd (by simp [answer, emitUnlessEmpty, hb]) (h (.unknownBlock id))
    | some b => exact effect_emitUnlessEmpty hb hg linked
  | link origin target =>
    cases ht : a.block? target with
    | none => exact absurd (by simp [answer, link_of_target_none ht]) (h (.unknownBlock target))
    | some b =>
      cases ho : a.block? origin with
      | none => exact absurd (by simp [answer, link_of_origin_none ho ht]) (h (.unknownBlock origin))
      | some c => exact effect_link (by rw [ho]; rfl) (by rw [ht]; rfl)
  | prependTo id code =>
    cases hb : a.block? id with
    | none => exact absurd (by simp [answer, prependTo, hb]) (h (.unknownBlock id))
    | some b => exact effect_prependTo (by rw [hb]; rfl) code
  | prepend code => exact effect_prepend hg code
  | resolveJumps id header =>
    cases hb : a.block? id with
    | none => exact absurd (by simp [answer, resolveJumps, hb]) (h (.unknownBlock id))
    | some b => exact effect_resolveJumps (by rw [hb]; rfl) header

/-! ### Edges -/

/-- The origin's side of an edge. -/
def Goes (a : Assembly) (origin target : BlockId) : Prop :=
  ∃ b, a.block? origin = some b ∧ target ∈ b.successors

/-- The target's side of an edge. -/
def Comes (a : Assembly) (origin target : BlockId) : Prop :=
  ∃ b, a.block? target = some b ∧ origin ∈ b.predecessors

/-- Every edge is entered at both of its ends. -/
def TwoSided (a : Assembly) : Prop := ∀ origin target, a.Goes origin target ↔ a.Comes origin target

namespace Effect

variable {e : Entry}

theorem goes_iff (he : Effect a e a') :
    a'.Goes origin target ↔ e.edge? a.current? = some (origin, target) ∨ a.Goes origin target := by
  constructor
  · rintro ⟨b', hb', ht⟩
    cases hb : a.block? origin with
    | some b =>
      obtain rfl := Option.some.inj ((he.edited origin b hb).symm.trans hb')
      exact (mem_successors_edged.1 ht).imp id fun ht => ⟨b, hb, ht⟩
    | none =>
      obtain ⟨-, role, rfl⟩ := he.fresh origin b' hb hb'
      exact absurd ht List.not_mem_nil
  · rintro (hd | ⟨b, hb, ht⟩)
    · obtain ⟨b, hb⟩ := Option.isSome_iff_exists.1 (he.joined _ hd).1
      exact ⟨_, he.edited origin b hb, mem_successors_edged.2 (Or.inl hd)⟩
    · exact ⟨_, he.edited origin b hb, mem_successors_edged.2 (Or.inr ht)⟩

theorem comes_iff (he : Effect a e a') :
    a'.Comes origin target ↔ e.edge? a.current? = some (origin, target) ∨ a.Comes origin target := by
  constructor
  · rintro ⟨b', hb', ho⟩
    cases hb : a.block? target with
    | some b =>
      obtain rfl := Option.some.inj ((he.edited target b hb).symm.trans hb')
      exact (mem_predecessors_edged.1 ho).imp id fun ho => ⟨b, hb, ho⟩
    | none =>
      obtain ⟨-, role, rfl⟩ := he.fresh target b' hb hb'
      exact absurd ho List.not_mem_nil
  · rintro (hd | ⟨b, hb, ho⟩)
    · obtain ⟨b, hb⟩ := Option.isSome_iff_exists.1 (he.joined _ hd).2
      exact ⟨_, he.edited target b hb, mem_predecessors_edged.2 (Or.inl hd)⟩
    · exact ⟨_, he.edited target b hb, mem_predecessors_edged.2 (Or.inr ho)⟩

theorem twoSided (he : Effect a e a') (h : a.TwoSided) : a'.TwoSided := fun origin target => by
  rw [he.goes_iff, he.comes_iff, h origin target]

theorem grounded (he : Effect a e a') (h : a.Grounded) : a'.Grounded := by
  have hkeeps : ∀ id, (a.block? id).isSome → (a'.block? id).isSome := fun id hid => by
    obtain ⟨b, hb⟩ := Option.isSome_iff_exists.1 hid
    rw [he.edited id b hb]
    rfl
  intro id hid
  rw [he.order, List.mem_append, Option.mem_toList] at hid
  rcases hid with hid | hid
  · obtain ⟨b, hb, -⟩ := he.unsealed id hid
    exact hkeeps id (by rw [hb]; rfl)
  · exact hkeeps id (h id hid)

end Effect

/-! ### Runs -/

theorem grounded_withOrigin (h : a.Grounded) : (a.withOrigin origin target).Grounded := by
  intro id hid
  rw [withOrigin, block?_modify]
  split_ifs
  · rw [Option.isSome_map]
    exact h id hid
  · exact h id hid

/-- The answer is a refusal, or the call does what the answer tells. -/
theorem refused_or_effect (hg : a.Grounded) (call : Call) :
    (∃ why, (a.answer call).1 = .refused why) ∨
      Effect a ⟨call, (a.answer call).1⟩ (a.answer call).2 := by
  by_cases h : ∃ why, (a.answer call).1 = .refused why
  · exact Or.inl h
  · exact Or.inr (effect_of_accepted hg fun why hr => h ⟨why, hr⟩)

theorem Grounded.answer (hg : a.Grounded) (call : Call) : (a.answer call).2.Grounded := by
  rcases refused_or_effect hg call with ⟨why, h⟩ | he
  · rcases answer_refused hg h with heq | ⟨origin, target, b, -, -, -, heq⟩
    · rwa [heq]
    · rw [heq]
      exact grounded_withOrigin hg
  · exact he.grounded hg

theorem TwoSided.answer (h : a.TwoSided) (hg : a.Grounded) (hs : ¬ a.Strays call) :
    (a.answer call).2.TwoSided := by
  rcases refused_or_effect hg call with ⟨why, hr⟩ | he
  · rwa [(answer_eq_self_iff hg hr).2 hs]
  · exact he.twoSided h

theorem Grounded.run (hg : a.Grounded) (calls : List Call) : (a.run calls).2.Grounded := by
  induction calls generalizing a with
  | nil => exact hg
  | cons call calls ih => exact ih (hg.answer call)

/-- No call of the run strays. -/
def NeverStrays : Assembly → List Call → Prop
  | _, [] => True
  | a, call :: calls => ¬ a.Strays call ∧ (a.answer call).2.NeverStrays calls

theorem TwoSided.run (h : a.TwoSided) (hg : a.Grounded) {calls : List Call}
    (hn : a.NeverStrays calls) : (a.run calls).2.TwoSided := by
  induction calls generalizing a with
  | nil => exact h
  | cons call calls ih => exact ih (h.answer hg hn.1) (hg.answer call) hn.2

theorem twoSided_empty : ({} : Assembly).TwoSided := fun origin target => by
  constructor <;> rintro ⟨b, hb, -⟩ <;> cases hb

/-- **What refusals leave**: after any calls, a call that is refused leaves every block and the order as
they were, unless it is a link from a block that there is not to one that does not list it yet. That one is
refused because of its origin, which is entered at the target all the same. Without such links edges have
two sides. -/
theorem run_refusals (calls : List Call) :
    (∀ call why, ((after calls).answer call).1 = .refused why →
      (((after calls).answer call).2 = after calls ↔ ¬ (after calls).Strays call)) ∧
    (∀ origin target, (after calls).Strays (.link origin target) →
      (after calls).answer (.link origin target) =
        (.refused (.unknownBlock origin), (after calls).withOrigin origin target)) ∧
    (({} : Assembly).NeverStrays calls → (after calls).TwoSided) := by
  have hempty : ({} : Assembly).Grounded := fun id hid => absurd hid List.not_mem_nil
  have hg : (after calls).Grounded := hempty.run calls
  refine ⟨fun call why h => answer_eq_self_iff hg h, fun origin target hs => ?_,
    twoSided_empty.run hempty⟩
  obtain ⟨ho, b, ht, -⟩ := hs
  rw [answer, link_of_origin_none ho ht]

/-- Two blocks with an edge between them, and a link between blocks that there are not. -/
def crossing : List Call :=
  [.create .normal, .create .normal, .emit ⟨0⟩ false, .link ⟨1⟩ ⟨0⟩, .link ⟨2⟩ ⟨3⟩]

theorem run_refusals_crossing :
    ((after crossing).answer (.emit ⟨0⟩ true)).1 = .refused (.emittedTwice ⟨0⟩) ∧
      ((after crossing).answer (.emit ⟨0⟩ true)).2 = after crossing ∧
      (after crossing).Strays (.link ⟨2⟩ ⟨0⟩) ∧
      ((after crossing).answer (.link ⟨2⟩ ⟨0⟩)).2 = (after crossing).withOrigin ⟨2⟩ ⟨0⟩ ∧
      ({} : Assembly).NeverStrays crossing ∧ (after crossing).TwoSided := by
  obtain ⟨hsame, hhalf, hsides⟩ := run_refusals crossing
  have hemit : ((after crossing).answer (.emit ⟨0⟩ true)).1 = .refused (.emittedTwice ⟨0⟩) := by decide
  have hstrays : (after crossing).Strays (.link ⟨2⟩ ⟨0⟩) := ⟨by decide, _, rfl, by decide⟩
  have hnever : ({} : Assembly).NeverStrays crossing := by
    refine ⟨id, id, id, ?_, ?_, trivial⟩
    · rintro ⟨ho, -⟩
      cases ho
    · rintro ⟨-, b, ht, -⟩
      cases ht
  exact ⟨hemit, (hsame _ _ hemit).2 id, hstrays, by rw [hhalf _ _ hstrays], hnever, hsides hnever⟩

/-- A link from a block that there is not is refused, and the target has it as a predecessor from then on. -/
theorem refusal_halves_edge :
    ((after [.create .normal]).answer (.link ⟨1⟩ ⟨0⟩)).1 = .refused (.unknownBlock ⟨1⟩) ∧
      ((after [.create .normal]).answer (.link ⟨1⟩ ⟨0⟩)).2 ≠ after [.create .normal] ∧
      ¬ ((after [.create .normal]).answer (.link ⟨1⟩ ⟨0⟩)).2.TwoSided := by
  refine ⟨by decide, by decide, fun h => ?_⟩
  obtain ⟨b, hb, -⟩ := (h ⟨1⟩ ⟨0⟩).2 ⟨_, rfl, by decide⟩
  cases hb

end Assembly
end LoopTrace
