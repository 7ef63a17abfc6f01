import Mathlib.Data.List.Nodup
import LoopTrace.Lowering.Call
import LoopTrace.Trace.Stored
import LoopTrace.Proofs.Reading

/-!
# Stored traces come back

A trace is read from the document that it is written as, provided that its numbers fit the widths of
their fields (`Trace.Fits`), which the types of a recorder see to, and that none of its floats is an
infinity or a NaN. What a text brings back is that document with other leaves in the places of its
numbers. Integers are read as they were written, and so all that a reader asks of a float is that its
text reads back to it (`Constant.Rereads`). Both cases are one statement about maps on leaves
(`Trace.ofJson?_mapLeaves`), proved form by form along the definitions of the documents.
-/

namespace LoopTrace

namespace Json

/-! ### Parts of documents under a map on leaves -/

/-- A map on leaves that changes no leaf but numbers, and no integer of 64 bits. -/
structure Keeps (f : Json → Json) : Prop where
  null : f .null = .null
  bool : ∀ b, f (.bool b) = .bool b
  string : ∀ s, f (.string s) = .string s
  integer : ∀ n : Int, -2 ^ 63 ≤ n → n < 2 ^ 64 → f (.number (.integer n)) = .number (.integer n)

theorem keeps_id : Keeps id := ⟨rfl, fun _ => rfl, fun _ => rfl, fun _ _ _ => rfl⟩

theorem keeps_rereadLeaf : Keeps rereadLeaf :=
  ⟨rfl, fun _ => rfl, fun _ => rfl, fun _ => Number.reread_integer⟩

variable {f : Json → Json}

theorem mapMembers_eq_map (members : List (String × Json)) :
    mapMembers f members = members.map fun m => (m.1, m.2.mapLeaves f) := by
  induction members with
  | nil => rfl
  | cons m members ih => rw [mapMembers, ih, List.map_cons]

theorem member?_of_mem {members : List (String × Json)} (h : (members.map Prod.fst).Nodup)
    {m : String × Json} (hm : m ∈ members) : member? members m.1 = some (some m.2) := by
  have hfilter : members.filter (·.1 = m.1) = [m] := by
    rw [← List.perm_singleton, List.perm_ext_iff_of_nodup (h.of_map.filter _) (by simp)]
    intro m'
    simp only [List.mem_filter, decide_eq_true_eq, List.mem_singleton]
    constructor
    · rintro ⟨hm', heq⟩
      exact List.inj_on_of_nodup_map h hm' hm heq
    · rintro rfl
      exact ⟨hm, rfl⟩
  rw [member?, hfilter]

/-- A record is read from the members under the names of its fields. -/
theorem record?_mapLeaves (members : List (String × Json)) (h : (members.map Prod.fst).Nodup) :
    ((Json.object members).mapLeaves f).record? (members.map Prod.fst) =
      some (members.map fun m => some (m.2.mapLeaves f)) := by
  have hnames : (mapMembers f members).map Prod.fst = members.map Prod.fst := by
    rw [mapMembers_eq_map, List.map_map]
    rfl
  have hall : ∀ l : List (String × Json), l ⊆ mapMembers f members →
      (l.map Prod.fst).mapM (member? (mapMembers f members)) = some (l.map fun m => some m.2) := by
    intro l hl
    induction l with
    | nil => rfl
    | cons m l ih =>
      obtain ⟨hm, hrest⟩ := List.cons_subset.1 hl
      simp [List.mapM_cons, member?_of_mem (hnames ▸ h) hm, ih hrest]
  rw [mapLeaves, record?, ← hnames, hall _ (List.Subset.refl _), mapMembers_eq_map, List.map_map]
  rfl

/-- A name stands for the first variant that has it. -/
theorem tagged?_mapLeaves (hf : Keeps f) {α : Type} (all : List α) (tag : α → String) (a : α) :
    tagged? all tag ((Json.string (tag a)).mapLeaves f) = all.find? (tag · = tag a) := by
  have hleaf : (Json.string (tag a)).mapLeaves f = .string (tag a) := hf.string _
  rw [hleaf]
  rfl

theorem integer?_mapLeaves (hf : Keeps f) {n low high : Int} (hlow : low ≤ n) (hhigh : n ≤ high)
    (hmin : -2 ^ 63 ≤ n) (hmax : n < 2 ^ 64) :
    ((Json.number (.integer n)).mapLeaves f).integer? low high = some n := by
  have hleaf : (Json.number (.integer n)).mapLeaves f = .number (.integer n) := hf.integer n hmin hmax
  rw [hleaf, integer?, if_pos ⟨hlow, hhigh⟩]

theorem natBelow?_mapLeaves (hf : Keeps f) {n bound : Nat} (hn : n < bound) (hb : bound ≤ 2 ^ 64) :
    ((ofNat n).mapLeaves f).natBelow? bound = some n := by
  rw [natBelow?, ofNat, integer?_mapLeaves hf (by omega) (by omega) (by omega) (by omega)]
  rfl

theorem word?_mapLeaves (hf : Keeps f) {n : Nat} (hn : n < UInt32.size) :
    ((ofNat n).mapLeaves f).word? = some n :=
  natBelow?_mapLeaves hf hn (by decide)

theorem variant?_mapLeaves (tag : String) (content : Json) :
    ((Json.variant tag content).mapLeaves f).variant? = some (tag, some (content.mapLeaves f)) :=
  rfl

theorem list?_mapLeaves {α : Type} {write : α → Json} {read : Json → Option α} {xs : List α}
    (h : ∀ x ∈ xs, read ((write x).mapLeaves f) = some x) :
    ((ofList write xs).mapLeaves f).list? read = some xs := by
  rw [ofList, mapLeaves, mapElements_map, list?]
  induction xs with
  | nil => rfl
  | cons x xs ih =>
    have hx := h x List.mem_cons_self
    have hrest := ih fun y hy => h y (List.mem_cons_of_mem _ hy)
    simp [List.mapM_cons, hx, hrest]

end Json

open Json

variable {f : Json → Json}

/-! ### Names -/

theorem Kind.ofJson?_mapLeaves (hf : Keeps f) (k : Kind) :
    Kind.ofJson? (k.toJson.mapLeaves f) = some k := by
  rw [ofJson?, toJson, tagged?_mapLeaves hf]
  cases k <;> rfl

theorem Comparator.ofJson?_mapLeaves (hf : Keeps f) (c : Comparator) :
    Comparator.ofJson? (c.toJson.mapLeaves f) = some c := by
  rw [ofJson?, toJson, tagged?_mapLeaves hf]
  cases c <;> rfl

theorem Operation.ofJson?_mapLeaves (hf : Keeps f) (op : Operation) :
    Operation.ofJson? (op.toJson.mapLeaves f) = some op := by
  rw [ofJson?, toJson, tagged?_mapLeaves hf]
  cases op <;> rfl

theorem Entry.ofJson?_mapLeaves (hf : Keeps f) (e : Entry) :
    Entry.ofJson? (e.toJson.mapLeaves f) = some e := by
  rw [ofJson?, toJson, tagged?_mapLeaves hf]
  cases e <;> rfl

theorem Signature.ofJson?_mapLeaves (hf : Keeps f) (s : Signature) :
    Signature.ofJson? (s.toJson.mapLeaves f) = some s := by
  have hrecord : (s.toJson.mapLeaves f).record? ["holder", "name", "params", "result", "kind"] =
      some [some ((Json.string s.holder).mapLeaves f), some ((Json.string s.name).mapLeaves f),
        some ((Json.ofList Kind.toJson s.parameters).mapLeaves f), some (s.result.toJson.mapLeaves f),
        some (s.entry.toJson.mapLeaves f)] :=
    record?_mapLeaves _ (by simp)
  have hholder : (Json.string s.holder).mapLeaves f = .string s.holder := hf.string _
  have hname : (Json.string s.name).mapLeaves f = .string s.name := hf.string _
  have hparameters : ((Json.ofList Kind.toJson s.parameters).mapLeaves f).list? Kind.ofJson? =
      some s.parameters :=
    list?_mapLeaves fun k _ => Kind.ofJson?_mapLeaves hf k
  have hresult := Kind.ofJson?_mapLeaves hf s.result
  have hentry := Entry.ofJson?_mapLeaves hf s.entry
  rw [ofJson?, hrecord, hholder, hname]
  simp [Json.string?, hparameters, hresult, hentry]

/-! ### Constants -/

namespace Constant

/-- The number of a guard fits its width. -/
def Fits : Constant → Prop
  | .guardSite site => site < UInt32.size
  | .int _ | .long _ | .float _ | .double _ | .null | .object _ => True

instance : (c : Constant) → Decidable c.Fits
  | .guardSite site => inferInstanceAs (Decidable (site < UInt32.size))
  | .int _ | .long _ | .float _ | .double _ | .null | .object _ => inferInstanceAs (Decidable True)

/-- A float is no infinity and no NaN. -/
def IsFinite : Constant → Prop
  | .float x => x.IsFinite
  | .double x => x.IsFinite
  | .int _ | .long _ | .null | .object _ | .guardSite _ => True

instance : (c : Constant) → Decidable c.IsFinite
  | .float x => inferInstanceAs (Decidable x.IsFinite)
  | .double x => inferInstanceAs (Decidable x.IsFinite)
  | .int _ | .long _ | .null | .object _ | .guardSite _ => inferInstanceAs (Decidable True)

/-- The text of a float reads back to the same float. As numerals are read in two roundings, not every
64-bit float has such a text. -/
def Rereads : Constant → Prop
  | .float x => (parse? x.stored).bind Json.single? = some x
  | .double x => (parse? x.stored).bind Json.double? = some x
  | .int _ | .long _ | .null | .object _ | .guardSite _ => True

instance : (c : Constant) → Decidable c.Rereads
  | .float x => inferInstanceAs (Decidable ((parse? x.stored).bind Json.single? = some x))
  | .double x => inferInstanceAs (Decidable ((parse? x.stored).bind Json.double? = some x))
  | .int _ | .long _ | .null | .object _ | .guardSite _ => inferInstanceAs (Decidable True)

/-- A float is read from its leaf as it was. -/
def ReadThrough (f : Json → Json) : Constant → Prop
  | .float x => (f (.number (.single x))).single? = some x
  | .double x => (f (.number (.double x))).double? = some x
  | .int _ | .long _ | .null | .object _ | .guardSite _ => True

theorem readThrough_id (c : Constant) : c.ReadThrough id := by
  cases c <;> trivial

theorem Rereads.readThrough {c : Constant} (h : c.Rereads) : c.ReadThrough rereadLeaf := by
  cases c with
  | float x =>
    have htext : parse? x.stored = some (rereadLeaf (.number (.single x))) :=
      parse?_compact (.number (.single x))
    rwa [Rereads, htext] at h
  | double x =>
    have htext : parse? x.stored = some (rereadLeaf (.number (.double x))) :=
      parse?_compact (.number (.double x))
    rwa [Rereads, htext] at h
  | _ => trivial

example : ¬ (double ⟨0x404907edd7223ab7⟩).Rereads := by decide +kernel

theorem ofJson?_mapLeaves (hf : Keeps f) {c : Constant} (hfits : c.Fits) (hfinite : c.IsFinite)
    (hread : c.ReadThrough f) : ofJson? (c.toJson.mapLeaves f) = some c := by
  cases c with
  | int n =>
    have hmin := n.le_toInt
    have hmax := n.toInt_lt
    have hn := integer?_mapLeaves hf n.minValue_le_toInt n.toInt_le (by omega) (by omega)
    rw [ofJson?, toJson, variant?_mapLeaves]
    simp only [hn, Option.map_some, Int32.ofInt_toInt]
  | long n =>
    have hmin := n.le_toInt
    have hmax := n.toInt_lt
    have hn := integer?_mapLeaves hf n.minValue_le_toInt n.toInt_le (by omega) (by omega)
    rw [ofJson?, toJson, variant?_mapLeaves]
    simp only [hn, Option.map_some, Int64.ofInt_toInt]
  | float x =>
    have hleaf : (Json.ofSingle x).mapLeaves f = f (.number (.single x)) := by
      have h : x.IsFinite := hfinite
      rw [Json.ofSingle, if_pos h]
      rfl
    have hx : (f (.number (.single x))).single? = some x := hread
    rw [ofJson?, toJson, variant?_mapLeaves, hleaf]
    simp [hx]
  | double x =>
    have hleaf : (Json.ofDouble x).mapLeaves f = f (.number (.double x)) := by
      have h : x.IsFinite := hfinite
      rw [Json.ofDouble, if_pos h]
      rfl
    have hx : (f (.number (.double x))).double? = some x := hread
    rw [ofJson?, toJson, variant?_mapLeaves, hleaf]
    simp [hx]
  | null =>
    have hleaf : (Json.string "Null").mapLeaves f = .string "Null" := hf.string _
    rw [toJson, hleaf]
    rfl
  | object handle =>
    have hn : ((Json.ofNat handle.toNat).mapLeaves f).natBelow? UInt64.size = some handle.toNat :=
      natBelow?_mapLeaves hf handle.toNat_lt (by decide)
    rw [ofJson?, toJson, variant?_mapLeaves]
    simp [hn]
  | guardSite site =>
    have hn := word?_mapLeaves hf hfits
    rw [ofJson?, toJson, variant?_mapLeaves]
    simp [hn]

end Constant

/-! ### Ids and frames -/

theorem ValueId.ofJson?_mapLeaves (hf : Keeps f) {id : ValueId} (h : id.index < UInt32.size) :
    ValueId.ofJson? (id.toJson.mapLeaves f) = some id := by
  rw [ofJson?, toJson, word?_mapLeaves hf h]
  rfl

theorem list?_ids_mapLeaves (hf : Keeps f) {ids : List ValueId}
    (h : ∀ id ∈ ids, id.index < UInt32.size) :
    ((Json.ofList ValueId.toJson ids).mapLeaves f).list? ValueId.ofJson? = some ids :=
  list?_mapLeaves fun id hid => ValueId.ofJson?_mapLeaves hf (h id hid)

theorem LocalFlags.ofJson?_mapLeaves (hf : Keeps f) (flags : LocalFlags) :
    LocalFlags.ofJson? (flags.toJson.mapLeaves f) = some flags := by
  have hrecord : (flags.toJson.mapLeaves f).record? ["read", "written"] =
      some [some ((Json.bool flags.read).mapLeaves f), some ((Json.bool flags.written).mapLeaves f)] :=
    record?_mapLeaves _ (by simp)
  have hbool : ∀ b, (Json.bool b).mapLeaves f = .bool b := fun b => hf.bool b
  rw [ofJson?, hrecord, hbool, hbool]
  rfl

/-- The position and the ids of a frame fit their widths. -/
structure Frame.Fits (frame : Frame ValueId) : Prop where
  position : frame.position < UInt32.size
  contents : ∀ id ∈ frame.contents, id.index < UInt32.size

instance (frame : Frame ValueId) : Decidable frame.Fits :=
  decidable_of_iff
    (frame.position < UInt32.size ∧ ∀ id ∈ frame.contents, id.index < UInt32.size)
    ⟨fun h => ⟨h.1, h.2⟩, fun h => ⟨h.position, h.contents⟩⟩

theorem Frame.ofJson?_mapLeaves (hf : Keeps f) {frame : Frame ValueId} (h : frame.Fits) :
    Frame.ofJson? ValueId.ofJson? ((frame.toJson ValueId.toJson).mapLeaves f) = some frame := by
  have hrecord : ((frame.toJson ValueId.toJson).mapLeaves f).record?
      ["method", "bytecode_position", "locals", "stack"] =
      some [some (frame.method.toJson.mapLeaves f), some ((Json.ofNat frame.position).mapLeaves f),
        some ((Json.ofList ValueId.toJson frame.locals).mapLeaves f),
        some ((Json.ofList ValueId.toJson frame.stack).mapLeaves f)] :=
    record?_mapLeaves _ (by simp)
  have hmethod := Signature.ofJson?_mapLeaves hf frame.method
  have hposition := word?_mapLeaves hf h.position
  have hlocals := list?_ids_mapLeaves hf fun id hid => h.contents id (List.mem_append_left _ hid)
  have hstack := list?_ids_mapLeaves hf fun id hid => h.contents id (List.mem_append_right _ hid)
  rw [ofJson?, hrecord]
  simp [hmethod, hposition, hlocals, hstack]

namespace Trace

theorem ids?_mapLeaves (hf : Keeps f) {ids : List ValueId}
    (h : ∀ id ∈ ids, id.index < UInt32.size) : ids? ((idsToJson ids).mapLeaves f) = some ids :=
  list?_ids_mapLeaves hf h

theorem frame?_mapLeaves (hf : Keeps f) {frame : Option (Frame ValueId)}
    (h : ∀ fr ∈ frame, fr.Fits) : frame? (some ((frameToJson frame).mapLeaves f)) = some frame := by
  cases frame with
  | none =>
    have hleaf : (frameToJson none).mapLeaves f = .null := hf.null
    rw [hleaf]
    rfl
  | some fr =>
    have hread : frame? (some ((frameToJson (some fr)).mapLeaves f)) =
        (Frame.ofJson? ValueId.ofJson? ((fr.toJson ValueId.toJson).mapLeaves f)).map some := rfl
    rw [hread, Frame.ofJson?_mapLeaves hf (h fr rfl), Option.map_some]

/-! ### Values -/

namespace Value

/-- A constant or the number of a local fits its width. -/
def LeafFits : Value → Prop
  | .constant c => c.Fits
  | .atEntry n _ _ => n < UInt16.size
  | .untracked | .operation .. | .call .. | .guard .. | .inlinedCall .. => True

instance : (v : Value) → Decidable v.LeafFits
  | .constant c => inferInstanceAs (Decidable c.Fits)
  | .atEntry n _ _ => inferInstanceAs (Decidable (n < UInt16.size))
  | .untracked | .operation .. | .call .. | .guard .. | .inlinedCall .. =>
    inferInstanceAs (Decidable True)

/-- The numbers and ids of a value fit their widths. -/
structure Fits (v : Value) : Prop where
  leaf : v.LeafFits
  operands : ∀ id ∈ v.operands, id.index < UInt32.size
  frame : ∀ fr ∈ v.frame?, fr.Fits

instance (v : Value) : Decidable v.Fits :=
  decidable_of_iff
    (v.LeafFits ∧ (∀ id ∈ v.operands, id.index < UInt32.size) ∧ ∀ fr ∈ v.frame?, fr.Fits)
    ⟨fun h => ⟨h.1, h.2.1, h.2.2⟩, fun h => ⟨h.leaf, h.operands, h.frame⟩⟩

theorem local?_mapLeaves (hf : Keeps f) {number : Nat} (h : number < UInt16.size) (kind : Kind)
    (flags : LocalFlags) :
    local? ((Json.object
      [("slot", .ofNat number), ("kind", kind.toJson), ("flags", flags.toJson)]).mapLeaves f) =
      some (.atEntry number kind flags) := by
  have hrecord := record?_mapLeaves (f := f)
    [("slot", .ofNat number), ("kind", kind.toJson), ("flags", flags.toJson)] (by simp)
  have hnumber := natBelow?_mapLeaves hf h (by decide)
  have hkind := Kind.ofJson?_mapLeaves hf kind
  have hflags := LocalFlags.ofJson?_mapLeaves hf flags
  simp only [List.map_cons, List.map_nil] at hrecord
  simp [local?, hrecord, hnumber, hkind, hflags]

theorem operation?_mapLeaves (hf : Keeps f) (op : Operation) {operands : List ValueId}
    (h : ∀ id ∈ operands, id.index < UInt32.size) :
    operation? ((Json.object [("op", op.toJson), ("operands", idsToJson operands)]).mapLeaves f) =
      some (.operation op operands) := by
  have hrecord := record?_mapLeaves (f := f)
    [("op", op.toJson), ("operands", idsToJson operands)] (by simp)
  have hop := Operation.ofJson?_mapLeaves hf op
  have hoperands := ids?_mapLeaves hf h
  simp only [List.map_cons, List.map_nil] at hrecord
  simp [operation?, hrecord, hop, hoperands]

theorem call?_mapLeaves (hf : Keeps f) (method : Signature) {operands : List ValueId}
    (h : ∀ id ∈ operands, id.index < UInt32.size) {frame : Option (Frame ValueId)}
    (hframe : ∀ fr ∈ frame, fr.Fits) :
    call? ((Json.object [("method", method.toJson), ("operands", idsToJson operands),
      ("state", frameToJson frame)]).mapLeaves f) = some (.call method operands frame) := by
  have hrecord := record?_mapLeaves (f := f) [("method", method.toJson),
    ("operands", idsToJson operands), ("state", frameToJson frame)] (by simp)
  have hmethod := Signature.ofJson?_mapLeaves hf method
  have hoperands := ids?_mapLeaves hf h
  have hread := frame?_mapLeaves hf hframe
  simp only [List.map_cons, List.map_nil] at hrecord
  simp [call?, hrecord, hmethod, hoperands, hread]

theorem guard?_mapLeaves (hf : Keeps f) (kind : Kind) (comparator : Comparator)
    {left right : ValueId} (hleft : left.index < UInt32.size) (hright : right.index < UInt32.size)
    {frame : Option (Frame ValueId)} (hframe : ∀ fr ∈ frame, fr.Fits) :
    guard? ((Json.object [("kind", kind.toJson), ("comparator", comparator.toJson),
      ("operands", idsToJson [left, right]), ("state", frameToJson frame)]).mapLeaves f) =
      some (.guard kind comparator left right frame) := by
  have hrecord := record?_mapLeaves (f := f) [("kind", kind.toJson),
    ("comparator", comparator.toJson), ("operands", idsToJson [left, right]),
    ("state", frameToJson frame)] (by simp)
  have hkind := Kind.ofJson?_mapLeaves hf kind
  have hcomparator := Comparator.ofJson?_mapLeaves hf comparator
  have hpair : ((idsToJson [left, right]).mapLeaves f).pair? ValueId.ofJson? = some (left, right) := by
    have hlist : (idsToJson [left, right]).mapLeaves f =
        .array [left.toJson.mapLeaves f, right.toJson.mapLeaves f] := rfl
    rw [hlist, pair?, ValueId.ofJson?_mapLeaves hf hleft, ValueId.ofJson?_mapLeaves hf hright]
    rfl
  have hread := frame?_mapLeaves hf hframe
  simp only [List.map_cons, List.map_nil] at hrecord
  simp [guard?, hrecord, hkind, hcomparator, hpair, hread]

theorem inlinedCall?_mapLeaves (hf : Keeps f) (method : Signature) {operands : List ValueId}
    (h : ∀ id ∈ operands, id.index < UInt32.size) :
    inlinedCall? ((Json.object
      [("method", method.toJson), ("operands", idsToJson operands)]).mapLeaves f) =
      some (.inlinedCall method operands) := by
  have hrecord := record?_mapLeaves (f := f)
    [("method", method.toJson), ("operands", idsToJson operands)] (by simp)
  have hmethod := Signature.ofJson?_mapLeaves hf method
  have hoperands := ids?_mapLeaves hf h
  simp only [List.map_cons, List.map_nil] at hrecord
  simp [inlinedCall?, hrecord, hmethod, hoperands]

theorem ofJson?_mapLeaves (hf : Keeps f) {v : Value} (h : v.Fits)
    (hc : ∀ c, v = .constant c → c.IsFinite ∧ c.ReadThrough f) :
    ofJson? (v.toJson.mapLeaves f) = some v := by
  cases v with
  | constant c =>
    have hread := Constant.ofJson?_mapLeaves hf h.leaf (hc c rfl).1 (hc c rfl).2
    rw [ofJson?, toJson, variant?_mapLeaves]
    simp only [hread, Option.map_some]
  | atEntry number kind flags =>
    rw [ofJson?, toJson, variant?_mapLeaves]
    exact local?_mapLeaves hf h.leaf kind flags
  | untracked =>
    have hleaf : (Json.string "Placeholder").mapLeaves f = .string "Placeholder" := hf.string _
    rw [toJson, hleaf]
    rfl
  | operation op operands =>
    rw [ofJson?, toJson, variant?_mapLeaves]
    exact operation?_mapLeaves hf op h.operands
  | call method operands frame =>
    rw [ofJson?, toJson, variant?_mapLeaves]
    exact call?_mapLeaves hf method h.operands h.frame
  | guard kind comparator left right frame =>
    rw [ofJson?, toJson, variant?_mapLeaves]
    exact guard?_mapLeaves hf kind comparator (h.operands left (by simp [operands]))
      (h.operands right (by simp [operands])) h.frame
  | inlinedCall method operands =>
    rw [ofJson?, toJson, variant?_mapLeaves]
    exact inlinedCall?_mapLeaves hf method h.operands

end Value

/-- The ids and numbers of a trace fit their widths. -/
structure Fits (t : Trace) : Prop where
  position : t.position < UInt32.size
  values : ∀ v ∈ t.values, v.Fits
  stream : ∀ id ∈ t.stream, id.index < UInt32.size
  entry : ∀ id ∈ t.entry, id.index < UInt32.size
  tail : ∀ id ∈ t.tail, id.index < UInt32.size

/-- The constants that the trace records. -/
def constants (t : Trace) : List Constant :=
  t.values.toList.filterMap fun
    | .constant c => some c
    | _ => none

theorem mem_constants {t : Trace} {c : Constant} : c ∈ t.constants ↔ .constant c ∈ t.values := by
  rw [constants, List.mem_filterMap]
  constructor
  · rintro ⟨v, hv, h⟩
    split at h
    · cases h
      exact Array.mem_toList_iff.1 hv
    · cases h
  · intro h
    exact ⟨_, Array.mem_toList_iff.2 h, rfl⟩

/-- The document of a trace is read as the trace, also after a map on leaves that keeps its floats. -/
theorem ofJson?_mapLeaves (hf : Keeps f) {t : Trace} (h : t.Fits)
    (hc : ∀ c ∈ t.constants, c.IsFinite ∧ c.ReadThrough f) :
    ofJson? (t.toJson.mapLeaves f) = some t := by
  have hrecord := record?_mapLeaves (f := f)
    [("anchor", t.anchor.toJson), ("anchor_position", .ofNat t.position),
      ("values", .ofList Value.toJson t.values.toList), ("prologue", idsToJson t.prologue),
      ("body", idsToJson t.body), ("entry_state", idsToJson t.entry),
      ("tail_state", idsToJson t.tail)] (by simp)
  have hanchor := Signature.ofJson?_mapLeaves hf t.anchor
  have hposition := word?_mapLeaves hf h.position
  have hvalues : ((Json.ofList Value.toJson t.values.toList).mapLeaves f).list? Value.ofJson? =
      some t.values.toList := by
    refine list?_mapLeaves fun v hv => ?_
    have hv := Array.mem_toList_iff.1 hv
    exact Value.ofJson?_mapLeaves hf (h.values v hv) fun c hvc =>
      hc c (mem_constants.2 (hvc ▸ hv))
  have hprologue := ids?_mapLeaves hf fun id hid => h.stream id (List.mem_append_left _ hid)
  have hbody := ids?_mapLeaves hf fun id hid => h.stream id (List.mem_append_right _ hid)
  have hentry := ids?_mapLeaves hf h.entry
  have htail := ids?_mapLeaves hf h.tail
  simp only [List.map_cons, List.map_nil] at hrecord
  simp [ofJson?, toJson, hrecord, hanchor, hposition, hvalues, hprologue, hbody, hentry, htail]

/-- The document is read as the trace, so that checks and lowerings of what is read have the same
results. -/
structure ComesBack (t : Trace) (j : Json) : Prop where
  read : ofJson? j = some t
  check : ∀ t', ofJson? j = some t' → t'.check = t.check
  lower : ∀ t' settings, ofJson? j = some t' → t'.lower settings = t.lower settings

theorem comesBack_of_read {t : Trace} {j : Json} (h : ofJson? j = some t) : t.ComesBack j where
  read := h
  check t' h' := by rw [Option.some.inj (h.symm.trans h')]
  lower t' settings h' := by rw [Option.some.inj (h.symm.trans h')]

/-- **A stored trace comes back identical**: from its document, and from the text of the document in
either layout if the texts of its floats read back to the same floats. -/
theorem stored_comes_back (t : Trace) (hfits : t.Fits) (hfinite : ∀ c ∈ t.constants, c.IsFinite) :
    t.ComesBack t.toJson ∧
      ((∀ c ∈ t.constants, c.Rereads) → ∀ text ∈ [t.toJson.compact, t.toJson.pretty],
        ∃ j, parse? text = some j ∧ t.ComesBack j) := by
  -- The document is itself under the map that changes nothing, and what a text spells is the document
  -- under the map that rereads numbers.
  constructor
  · have h := ofJson?_mapLeaves keeps_id hfits fun c hc => ⟨hfinite c hc, c.readThrough_id⟩
    rw [mapLeaves_id] at h
    exact comesBack_of_read h
  · intro hrereads text htext
    have h : ofJson? t.toJson.reread = some t :=
      ofJson?_mapLeaves keeps_rereadLeaf hfits fun c hc =>
        ⟨hfinite c hc, (hrereads c hc).readThrough⟩
    have hparse : parse? text = some t.toJson.reread := by
      simp only [List.mem_cons, List.not_mem_nil, or_false] at htext
      rcases htext with rfl | rfl
      · exact parse?_compact _
      · exact parse?_pretty _
    exact ⟨_, hparse, comesBack_of_read h⟩

/-- A trace with a value of every form and with names that need escapes. -/
def gallery : Trace where
  anchor := ⟨"Gallery\t\x22main\x22", "walk", [.int, .double], .void, .template⟩
  position := 4294967295
  values := #[
    .constant (.int (-7)), .constant (.long 9007199254740993), .constant (.float ⟨0x3dcccccd⟩),
    .constant (.double ⟨0xc004000000000000⟩), .constant .null,
    .constant (.object 18446744073709551615), .constant (.guardSite 9),
    .atEntry 65535 .int ⟨true, false⟩, .untracked, .operation .intAdd [⟨0⟩, ⟨7⟩],
    .call ⟨"Gallery", "\x01", [.int], .int, .nativeExit⟩ [⟨9⟩] none,
    .guard .int .lessThan ⟨10⟩ ⟨0⟩ (some ⟨⟨"Gallery", "walk", [], .void, .managed⟩, 3, [⟨7⟩], [⟨8⟩]⟩),
    .inlinedCall ⟨"Gallery", "leave", [], .void, .vmEntry⟩ []]
  prologue := [⟨9⟩]
  body := [⟨10⟩, ⟨11⟩, ⟨12⟩]
  entry := [⟨7⟩]
  tail := [⟨10⟩]

theorem stored_comes_back_gallery : gallery.ComesBack gallery.toJson ∧
    ∃ j, parse? gallery.toJson.pretty = some j ∧ gallery.ComesBack j := by
  have hfits : gallery.Fits :=
    ⟨by decide, by decide, by decide, by decide, by decide⟩
  obtain ⟨hdocument, htext⟩ := stored_comes_back gallery hfits (by decide)
  exact ⟨hdocument, htext (by decide +kernel) _ (by simp)⟩

end Trace

end LoopTrace
