import LightClient.Wire
import LightClient.Proofs.Decoder

/-!
# Writing into an announced length

Serialization writes the pieces of a value into a writer that has room for exactly the announced
length. It cannot fail when the pieces are as long together as was announced, and gives the pieces
one after the other.
-/

namespace LightClient

namespace Writer

/-- The writer after some more octets. -/
def append (w : Writer) (bs : Bytes) : Writer :=
  { w with data := w.data ++ bs }

theorem append_nil (w : Writer) : w.append [] = w := by
  rw [append, List.append_nil]

theorem append_append (w : Writer) (left right : Bytes) :
    (w.append left).append right = w.append (left ++ right) := by
  simp only [append, List.append_assoc]

theorem hasRoom_iff {data : Bytes} {limit n : Nat} :
    (Writer.mk data (some limit)).hasRoom n = true ↔ data.length + n ≤ limit :=
  decide_eq_true_iff

/-- Room for one thing and another is room for the one and then for the other. -/
theorem hasRoom_add_iff {w : Writer} {bs : Bytes} {n : Nat} :
    w.hasRoom (bs.length + n) = true ↔
      w.hasRoom bs.length = true ∧ (w.append bs).hasRoom n = true := by
  obtain ⟨data, limit⟩ := w
  cases limit with
  | none => simp [hasRoom, allows, append]
  | some limit =>
    dsimp only [append]
    rw [hasRoom_iff, hasRoom_iff, hasRoom_iff, List.length_append]
    omega

theorem hasRoom_sized (size : Nat) : (sized size).hasRoom size = true :=
  hasRoom_iff.mpr (Nat.le_of_eq (Nat.zero_add size))

end Writer

namespace Write

theorem reserve_eq_ok {n : Nat} {w : Writer} (hroom : w.hasRoom n = true) :
    reserve n w = .ok () w := by
  show (if w.hasRoom n = false then throw (.outOfBounds w.offset) else pure () : Write Unit) w = _
  rw [hroom, if_neg Bool.noConfusion]
  rfl

theorem reserve_eq_error {n : Nat} {w : Writer} (hroom : w.hasRoom n = false) :
    reserve n w = .error (.outOfBounds w.offset) w := by
  show (if w.hasRoom n = false then throw (.outOfBounds w.offset) else pure () : Write Unit) w = _
  rw [if_pos hroom]
  rfl

/-- A piece is written whole if there is room for it. -/
theorem piece_eq_ok {bs : Bytes} {w : Writer} (hroom : w.hasRoom bs.length = true) :
    piece bs w = .ok () (w.append bs) :=
  Guards.bind_of_eq_ok (reserve_eq_ok hroom) _

/-- A piece for which there is no room is not written. -/
theorem piece_eq_error {bs : Bytes} {w : Writer} (hroom : w.hasRoom bs.length = false) :
    piece bs w = .error (.outOfBounds w.offset) w :=
  Guards.bind_of_eq_error (reserve_eq_error hroom) _

theorem pieces_cons (bs : Bytes) (bss : List Bytes) :
    pieces (bs :: bss) = piece bs >>= fun _ => pieces bss :=
  rfl

/-- Pieces for which there is room together are all written. -/
theorem pieces_eq_ok {bss : List Bytes} {w : Writer}
    (hroom : w.hasRoom bss.flatten.length = true) :
    pieces bss w = .ok () (w.append bss.flatten) := by
  induction bss generalizing w with
  | nil =>
    rw [List.flatten_nil, Writer.append_nil]
    rfl
  | cons bs bss ih =>
    rw [List.flatten_cons, List.length_append] at hroom
    obtain ⟨hhead, htail⟩ := Writer.hasRoom_add_iff.mp hroom
    rw [pieces_cons, Guards.bind_of_eq_ok (piece_eq_ok hhead), ih htail, Writer.append_append,
      List.flatten_cons]

end Write

namespace Wire

variable {α : Type} [Wire α]

/-- Pieces that are as long together as announced are serialized. -/
theorem serializePieces_eq_ok {size : Nat} {pieces : List Bytes}
    (hsize : pieces.flatten.length = size) : serializePieces size pieces = .ok pieces.flatten := by
  have hroom : (Writer.sized size).hasRoom pieces.flatten.length = true := by
    rw [hsize]
    exact Writer.hasRoom_sized size
  rw [serializePieces, Write.pieces_eq_ok hroom]
  simp [Writer.append, Writer.sized, Writer.finish, Writer.offset, hsize]

theorem serialize_eq_ok {a : α} (hsize : (bytes a).length = size a) :
    serialize a = .ok (bytes a) :=
  serializePieces_eq_ok hsize

/-- A value is written whole into a writer with room for its announced length. -/
theorem write_eq_ok {a : α} {w : Writer} (hsize : (bytes a).length = size a)
    (hroom : w.hasRoom (size a) = true) : write a w = .ok () (w.append (bytes a)) := by
  rw [← hsize] at hroom
  exact Write.pieces_eq_ok hroom

/-! ## Lists -/

/-- The encoding of a list: its count and its values. -/
def listBytes (as : List α) : Bytes :=
  CompactSize.encode as.length ++ as.flatMap bytes

theorem flatten_flatMap_pieces {β : Type} (pieces : β → List Bytes) (bs : List β) :
    (bs.flatMap pieces).flatten = bs.flatMap fun b => (pieces b).flatten := by
  rw [List.flatten_eq_flatMap, List.flatMap_assoc]
  simp only [List.flatten_eq_flatMap]

theorem flatten_listPieces (as : List α) : (listPieces as).flatten = listBytes as := by
  rw [listPieces, List.flatten_cons, flatten_flatMap_pieces]
  rfl

/-- A measure that is right for every value is right for a list of values. -/
theorem length_flatMap_eq_sumBy {β : Type} {enc : β → Bytes} {measure : β → Nat}
    (hmeasure : ∀ b, (enc b).length = measure b) (bs : List β) :
    (bs.flatMap enc).length = sumBy measure bs := by
  induction bs with
  | nil => rfl
  | cons b bs ih => rw [List.flatMap_cons, List.length_append, hmeasure, ih, sumBy]

theorem length_listBytes (hsize : ∀ a : α, (bytes a).length = size a) (as : List α) :
    (listBytes as).length = listSize as := by
  rw [listBytes, List.length_append, CompactSize.length_encode, length_flatMap_eq_sumBy hsize,
    listSize]

theorem serializeList_eq_ok (hsize : ∀ a : α, (bytes a).length = size a) (as : List α) :
    serializeList as = .ok (listBytes as) := by
  rw [serializeList, serializePieces_eq_ok, flatten_listPieces]
  rw [flatten_listPieces, length_listBytes hsize]

/-- A list of values is decoded exactly when each value is. -/
theorem list_exact {fits : α → Prop} (hdecode : (decode (α := α)).Exact fits bytes) :
    (Decoder.list (decode (α := α))).Exact
      (fun as => as.length < 2 ^ 64 ∧ ∀ a ∈ as, fits a) listBytes :=
  Decoder.list_exact hdecode

/-! ## Whole byte strings -/

/-- What fills a byte string is read from it. -/
theorem parse_eq_ok_iff {bs : Bytes} {a : α} :
    parse bs = .ok a ↔
      ∃ t : Suffix, t.bytes = [] ∧ decode (Suffix.ofData bs 0) = .ok a t := by
  unfold parse
  cases decode (α := α) (Suffix.ofData bs 0) with
  | ok b t =>
    by_cases hrest : t.bytes = []
    · simp [hrest]
    · simp [hrest]
  | error e t => simp

/-- A value is read from the byte strings that spell it. -/
theorem parse_eq_ok_iff_spells {spells : α → Bytes → Prop} {bs : Bytes} {a : α}
    (hdecode : (decode (α := α)).Reads spells) : parse bs = .ok a ↔ spells a bs := by
  rw [parse_eq_ok_iff]
  constructor
  · rintro ⟨t, hrest, hok⟩
    obtain ⟨whole, hspells, hspan⟩ := (hdecode _ a t).mp hok
    have hwhole : bs = whole := by
      simpa [Suffix.ofData, hrest] using hspan.1
    exact hwhole ▸ hspells
  · intro hspells
    refine ⟨⟨bs.length, []⟩, rfl, (hdecode _ a _).mpr ⟨bs, hspells, ?_⟩⟩
    simp [Suffix.Spans, Suffix.ofData]

end Wire

end LightClient
