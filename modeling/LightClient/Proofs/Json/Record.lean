import Mathlib.Data.List.Nodup
import LightClient.Json.Record
import LightClient.Proofs.Json.Document

/-!
# Written records are read back

A record that names no field twice is read by the list of its names: every field is found, and has
the value of what was written for it. This holds of strict and of lenient readers.
-/

namespace LightClient.Json

variable {fields : List (String × Document)}

/-- Every field of a record has a name that is a text. -/
theorem namedMembers?_fieldMembers (fields : List (String × Document)) :
    namedMembers? (fieldMembers fields) =
      some (fields.map fun field => (field.1, field.2.value)) := by
  induction fields with
  | nil => rfl
  | cons field fields ih =>
    obtain ⟨name, value⟩ := field
    rw [namedMembers?] at ih ⊢
    rw [fieldMembers, List.mapM_cons, ih]
    rfl

/-- A name that stands once is found with its value. -/
theorem lookup_of_mem {α : Type} {members : List (String × α)}
    (hnodup : (members.map Prod.fst).Nodup) {name : String} {a : α}
    (hmem : (name, a) ∈ members) : members.lookup name = some a := by
  induction members with
  | nil => cases hmem
  | cons member members ih =>
    rw [List.map_cons, List.nodup_cons] at hnodup
    obtain ⟨hnot, hnodup⟩ := hnodup
    rcases List.mem_cons.mp hmem with rfl | hmem
    · exact List.lookup_cons_self
    · have hne : (name == member.1) = false := by
        rw [beq_eq_false_iff_ne]
        rintro rfl
        exact hnot (List.mem_map.mpr ⟨(member.1, a), hmem, rfl⟩)
      rw [List.lookup_cons, hne]
      exact ih hnodup hmem

/-- No name stands twice among names that differ. -/
theorem countP_le_one {α : Type} {members : List (String × α)}
    (hnodup : (members.map Prod.fst).Nodup) (name : String) :
    members.countP (·.1 = name) ≤ 1 := by
  have hcount := List.nodup_iff_count_le_one.mp hnodup name
  rw [List.count, List.countP_map] at hcount
  refine le_of_eq_of_le (List.countP_congr fun member _ => ?_) hcount
  simp

/-- The fields of a record are found by their names. -/
theorem fields?_record (strictness : Strictness) (hnodup : (fields.map Prod.fst).Nodup) :
    (Document.record fields).value.fields? strictness (fields.map Prod.fst) =
      some (fields.map fun field => some field.2.value) := by
  let named := fields.map fun field => (field.1, field.2.value)
  have hnames : named.map Prod.fst = fields.map Prod.fst := by simp [named]
  have hnamed : (named.map Prod.fst).Nodup := by rwa [hnames]
  have hlookup : (fields.map Prod.fst).map (fun name => named.lookup name) =
      fields.map fun field => some field.2.value := by
    rw [List.map_map, List.map_inj_left]
    intro field hfield
    have hmem : (field.1, field.2.value) ∈ named :=
      List.mem_map_of_mem (f := fun field : String × Document => (field.1, field.2.value)) hfield
    exact lookup_of_mem hnamed hmem
  rw [Document.value, fields?, namedMembers?_fieldMembers, Option.bind_eq_bind, Option.bind_some,
    guard, if_pos, pure_bind, guard, if_pos, pure_bind, hlookup]
  · rfl
  · rw [List.all_eq_true]
    intro name _
    exact decide_eq_true (countP_le_one hnamed name)
  · right
    rw [List.all_eq_true]
    intro member hmember
    rw [List.contains_iff_mem, ← hnames]
    exact List.mem_map_of_mem hmember

/-- No field of a record is absent. -/
theorem allFields?_record (strictness : Strictness) (hnodup : (fields.map Prod.fst).Nodup) :
    (Document.record fields).value.allFields? strictness (fields.map Prod.fst) =
      some (fields.map fun field => field.2.value) := by
  have hpresent (values : List Json) : (values.map some).mapM id = some values := by
    induction values with
    | nil => rfl
    | cons value values ih => rw [List.map_cons, List.mapM_cons, ih]; rfl
  have hsome : fields.map (fun field => some field.2.value) =
      (fields.map fun field => field.2.value).map some := by simp
  rw [allFields?, fields?_record strictness hnodup, hsome]
  exact hpresent _

/-! ## Fields -/

theorem uint32?_value (n : UInt32) : (Document.natural n.toNat).value.uint32? = some n := by
  have hbound : n.toNat < UInt32.size := n.toNat_lt
  simp [Document.value, uint32?, naturalBelow?, hbound]

theorem uint64?_value (n : UInt64) : (Document.natural n.toNat).value.uint64? = some n := by
  have hbound : n.toNat < UInt64.size := n.toNat_lt
  simp [Document.value, uint64?, naturalBelow?, hbound]

theorem bool?_value (b : Bool) : (Document.flag b).value.bool? = some b :=
  rfl

/-- Nothing that is written is what an absent field stands for. -/
theorem optional?_value {α : Type} (reader : Json → Option α) (d : Document) :
    optional? reader (some d.value) = (reader d.value).map some := by
  cases d <;> rfl

/-! ## Texts -/

/-- A written document is read by what reads its value. -/
theorem read_render {α : Type} {reader : Json → Option α} {d : Document} {a : α}
    (hreader : reader d.value = some a) : read reader d.render = .ok a := by
  simp [read, d.parse?_render, hreader]

end LightClient.Json
