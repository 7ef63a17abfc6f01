import LoopTrace.Json.Reader
import LoopTrace.Proofs.Spelling

/-!
# Documents read back

A document comes back from its text as it was written, in either layout, but for its numbers: for each of
them stands what its text spells (`parse?_compact`, `parse?_pretty`). Only the leaves of a document can
change on the way, so that reading back is a map on leaves (`Json.reread`).
-/

namespace LoopTrace.Json

/-! ### Maps on leaves -/

mutual

/-- The document with every leaf replaced. -/
def mapLeaves (f : Json → Json) : Json → Json
  | .array elements => .array (mapElements f elements)
  | .object members => .object (mapMembers f members)
  | j => f j

/-- Each element with its leaves replaced. -/
def mapElements (f : Json → Json) : List Json → List Json
  | [] => []
  | j :: rest => j.mapLeaves f :: mapElements f rest

/-- Each member with its leaves replaced. -/
def mapMembers (f : Json → Json) : List (String × Json) → List (String × Json)
  | [] => []
  | (name, j) :: rest => (name, j.mapLeaves f) :: mapMembers f rest

end

mutual

theorem mapLeaves_id : ∀ j : Json, j.mapLeaves id = j
  | .null | .bool _ | .number _ | .string _ | .unreadable => rfl
  | .array elements => by rw [mapLeaves, mapElements_id elements]
  | .object members => by rw [mapLeaves, mapMembers_id members]

theorem mapElements_id : ∀ elements : List Json, mapElements id elements = elements
  | [] => rfl
  | j :: rest => by rw [mapElements, mapLeaves_id j, mapElements_id rest]

theorem mapMembers_id : ∀ members : List (String × Json), mapMembers id members = members
  | [] => rfl
  | (name, j) :: rest => by rw [mapMembers, mapLeaves_id j, mapMembers_id rest]

end

theorem mapElements_map {α : Type} (f : Json → Json) (write : α → Json) (xs : List α) :
    mapElements f (xs.map write) = xs.map fun x => (write x).mapLeaves f := by
  induction xs with
  | nil => rfl
  | cons x xs ih => rw [List.map_cons, mapElements, ih, List.map_cons]

/-- What the text of a leaf stands for. -/
def rereadLeaf : Json → Json
  | .number n => n.reread
  | .unreadable => .null
  | j => j

/-- What the text of a document stands for. -/
def reread (j : Json) : Json := j.mapLeaves rereadLeaf

/-! ### Reading tokens -/

/-- The place where an array's first element stands may hold the end of the array as well; a value is
read as in any other place. -/
theorem foldlM_firstElement (j : Json) (rest : List Token) (outer : Place) :
    (j.tokens ++ rest).foldlM Reader.step (.firstElement outer) =
      (j.tokens ++ rest).foldlM Reader.step (.value (.element [] outer)) := by
  cases j <;> rfl

theorem closeObject_reverse (members : List (String × Json)) :
    closeObject (members.map fun m => (some m.1, m.2)).reverse = .object members := by
  have h : (members.map fun m => ((some m.1, m.2) : Member)).mapM
      (fun m => m.1.map fun name => (name, m.2)) = some members := by
    induction members with
    | nil => rfl
    | cons m members ih => simp [List.mapM_cons, ih]
  rw [closeObject, List.reverse_reverse, h]

/-- The reader puts a document together from its tokens, wherever it stands. -/
def Reads (j : Json) : Prop :=
  ∀ place : Place, j.tokens.foldlM Reader.step (.value place) = some (place.fill j.reread)

section Containers

variable (outer : Place)

/-- The elements of an array, after some others. -/
theorem foldlM_elements {elements : List Json} (hne : elements ≠ []) (h : ∀ j ∈ elements, Reads j)
    (before : List Json) :
    ([Token.comma].intercalate (elementTokens elements) ++ [Token.closeArray]).foldlM Reader.step
      (.value (.element before outer)) =
      some (outer.fill (.array (before.reverse ++ mapElements rereadLeaf elements))) := by
  induction elements generalizing before with
  | nil => exact absurd rfl hne
  | cons j rest ih =>
    have hj : Reads j := h j List.mem_cons_self
    have hrest : ∀ j ∈ rest, Reads j := fun j' hj' => h j' (List.mem_cons_of_mem _ hj')
    cases rest with
    | nil =>
      have hone : [Token.comma].intercalate (elementTokens [j]) = j.tokens := by
        simp [elementTokens]
      have hlast : (before.reverse ++ mapElements rereadLeaf [j]) =
          (j.reread :: before).reverse := by
        simp [mapElements, reread]
      rw [hone, List.foldlM_append, hj, hlast]
      rfl
    | cons j' rest =>
      have hmore : [Token.comma].intercalate (elementTokens (j :: j' :: rest)) =
          j.tokens ++ [Token.comma] ++ [Token.comma].intercalate (elementTokens (j' :: rest)) :=
        List.intercalate_cons_cons
      have hnext : (before.reverse ++ mapElements rereadLeaf (j :: j' :: rest)) =
          (j.reread :: before).reverse ++ mapElements rereadLeaf (j' :: rest) := by
        simp [mapElements, reread]
      rw [hmore, List.append_assoc, List.append_assoc, List.foldlM_append, hj, hnext]
      exact ih (by simp) hrest (j.reread :: before)

/-- A member of an object, after some others. -/
theorem foldlM_member {name : String} {j : Json} (hj : Reads j) (rest : List Token)
    (before : List Member) :
    ([Token.text (some name), Token.colon] ++ j.tokens ++ rest).foldlM Reader.step
      (.nextName before outer) =
      rest.foldlM Reader.step (.afterMember ((some name, j.reread) :: before) outer) := by
  have hname : ([Token.text (some name), Token.colon] : List Token).foldlM Reader.step
      (.nextName before outer) = some (.value (.member before (some name) outer)) := rfl
  rw [List.append_assoc, List.foldlM_append, hname]
  simp only [Option.bind_eq_bind, Option.bind_some]
  rw [List.foldlM_append, hj]
  rfl

/-- The members of an object, after some others. -/
theorem foldlM_members {members : List (String × Json)} (hne : members ≠ [])
    (h : ∀ m ∈ members, Reads m.2) (before : List (String × Json)) :
    ([Token.comma].intercalate (memberTokens members) ++ [Token.closeObject]).foldlM Reader.step
      (.nextName (before.map fun m => (some m.1, m.2)).reverse outer) =
      some (outer.fill (.object (before ++ mapMembers rereadLeaf members))) := by
  induction members generalizing before with
  | nil => exact absurd rfl hne
  | cons m rest ih =>
    obtain ⟨name, j⟩ := m
    have hj : Reads j := h (name, j) List.mem_cons_self
    have hrest : ∀ m ∈ rest, Reads m.2 := fun m hm => h m (List.mem_cons_of_mem _ hm)
    -- The reader keeps members from the last to the first, and the new one goes to the front.
    have hbefore : (some name, j.reread) :: (before.map fun m => (some m.1, m.2)).reverse =
        ((before ++ [(name, j.reread)]).map fun m => ((some m.1, m.2) : Member)).reverse := by
      simp
    cases rest with
    | nil =>
      have hone : [Token.comma].intercalate (memberTokens [(name, j)]) =
          [.text (some name), .colon] ++ j.tokens := by
        simp [memberTokens]
      have hclose : closeObject ((before ++ [(name, j.reread)]).map
          fun m => ((some m.1, m.2) : Member)).reverse = .object (before ++ [(name, j.reread)]) :=
        closeObject_reverse _
      rw [hone, foldlM_member outer hj, hbefore]
      simp only [List.foldlM_cons, List.foldlM_nil, Reader.step, hclose]
      rfl
    | cons m' rest =>
      have hmore : [Token.comma].intercalate (memberTokens ((name, j) :: m' :: rest)) =
          [.text (some name), .colon] ++ j.tokens ++ [Token.comma] ++
            [Token.comma].intercalate (memberTokens (m' :: rest)) :=
        List.intercalate_cons_cons
      have hnext : before ++ mapMembers rereadLeaf ((name, j) :: m' :: rest) =
          before ++ [(name, j.reread)] ++ mapMembers rereadLeaf (m' :: rest) := by
        simp [mapMembers, reread]
      rw [hmore, List.append_assoc, List.append_assoc, foldlM_member outer hj, hbefore, hnext]
      exact ih (by simp) hrest (before ++ [(name, j.reread)])

end Containers

theorem exists_intercalate (ts : List Token) (tss : List (List Token)) :
    ∃ more, [Token.comma].intercalate (ts :: tss) = ts ++ more := by
  cases tss with
  | nil => exact ⟨[], by simp⟩
  | cons ts' tss =>
    exact ⟨_, by rw [List.intercalate_cons_cons, List.append_assoc]⟩

theorem reads_array {elements : List Json} (h : ∀ j ∈ elements, Reads j) :
    Reads (.array elements) := by
  intro place
  cases elements with
  | nil => rfl
  | cons j rest =>
    obtain ⟨more, hmore⟩ := exists_intercalate j.tokens (elementTokens rest)
    have hall := foldlM_elements place (by simp) h []
    rw [elementTokens, hmore, List.append_assoc, ← foldlM_firstElement] at hall
    rw [tokens, elementTokens, hmore, List.append_assoc, List.append_assoc]
    exact hall

theorem reads_object {members : List (String × Json)} (h : ∀ m ∈ members, Reads m.2) :
    Reads (.object members) := by
  intro place
  cases members with
  | nil => rfl
  | cons m rest =>
    obtain ⟨name, j⟩ := m
    obtain ⟨more, hmore⟩ := exists_intercalate ([.text (some name), .colon] ++ j.tokens)
      (memberTokens rest)
    have hall := foldlM_members place (by simp) h []
    rw [memberTokens, hmore] at hall
    rw [tokens, memberTokens, hmore]
    exact hall

mutual

/-- The reader puts every document together from its tokens. -/
theorem reads : ∀ j : Json, Reads j
  | .null | .unreadable | .bool _ | .number _ | .string _ => fun _ => rfl
  | .array elements => reads_array (readsElements elements)
  | .object members => reads_object (readsMembers members)

theorem readsElements : ∀ elements : List Json, ∀ j ∈ elements, Reads j
  | [], _, hj => absurd hj List.not_mem_nil
  | j :: rest, j', hj => (List.mem_cons.1 hj).elim (fun h => h ▸ reads j) (readsElements rest j')

theorem readsMembers : ∀ members : List (String × Json), ∀ m ∈ members, Reads m.2
  | [], _, hm => absurd hm List.not_mem_nil
  | (_, j) :: rest, m, hm =>
    (List.mem_cons.1 hm).elim (fun h => h ▸ reads j) (readsMembers rest m)

end

theorem parse?_of_spelled {s : String} {j : Json} (h : Spelled s.toList j.tokens) :
    parse? s = some j.reread := by
  rw [parse?, tokens?_of_spelled h, Option.bind_some, reads j]
  rfl

/-- A document on one line comes back. -/
theorem parse?_compact (j : Json) : parse? j.compact = some j.reread :=
  parse?_of_spelled (spelled_compact j)

/-- A document on indented lines comes back. -/
theorem parse?_pretty (j : Json) : parse? j.pretty = some j.reread :=
  parse?_of_spelled (spelled_indented j closed_nil)

end LoopTrace.Json
