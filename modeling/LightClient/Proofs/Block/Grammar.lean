import LightClient.Block.Basic
import LightClient.Proofs.Header
import LightClient.Proofs.Transaction.Digests

/-!
# The grammar of blocks

A block is spelled as its header, the number of its transactions, and a spelling of each. Nothing
stands between two transactions: where one ends can be told from its own octets alone, be it in
legacy form or not, whatever form the next one has.
-/

namespace LightClient.Block

/-- The number of transactions is below 2^64, as the length of every list in memory is, so that it
can be written; and so is every count in a transaction. -/
structure Fits (b : Block) : Prop where
  transactions_lt : b.transactions.length < 2 ^ 64
  transaction_fits : ∀ tx ∈ b.transactions, tx.Fits

/-- The octets of a block, with every transaction in either of its two spellings. -/
def Spelling (b : Block) (bs : Bytes) : Prop :=
  ∃ rest, Decoder.SpellsEach Transaction.Spelling b.transactions rest ∧
    bs = Wire.bytes b.header ++ (CompactSize.encode b.transactions.length ++ rest)

/-- A block is decoded exactly from what spells it. -/
theorem decode_reads : (Wire.decode (α := Block)).Reads fun b bs => b.Fits ∧ b.Spelling bs := by
  have hlist := Transaction.decode_reads.list
  intro s b t
  show (Wire.decode >>= fun header => Decoder.list Wire.decode >>= fun transactions =>
    pure (⟨header, transactions⟩ : Block)) s = .ok b t ↔ _
  simp only [Decoder.bind_eq_ok_iff, Decoder.pure_eq_ok_iff]
  constructor
  · rintro ⟨header, m, hheader, transactions, m', htransactions, rfl, rfl⟩
    obtain ⟨-, hspan⟩ := (Header.decode_exact s header m).mp hheader
    obtain ⟨_, ⟨hlt, rest, heach, rfl⟩, hspan'⟩ := (hlist m transactions m').mp htransactions
    obtain ⟨hfits, hspelling⟩ := Decoder.spellsEach_and_iff.mp heach
    exact ⟨_, ⟨⟨hlt, hfits⟩, rest, hspelling, rfl⟩, Suffix.spans_append_iff.mpr ⟨m, hspan, hspan'⟩⟩
  · rintro ⟨_, ⟨⟨hlt, hfits⟩, rest, hspelling, rfl⟩, hspan⟩
    obtain ⟨m, hspan, hspan'⟩ := Suffix.spans_append_iff.mp hspan
    have heach := Decoder.spellsEach_and_iff.mpr ⟨hfits, hspelling⟩
    exact ⟨b.header, m, (Header.decode_exact _ _ _).mpr ⟨trivial, hspan⟩, b.transactions, t,
      (hlist _ _ _).mpr ⟨_, ⟨hlt, rest, heach, rfl⟩, hspan'⟩, rfl, rfl⟩

theorem parse_eq_ok_iff_spelling {b : Block} {bs : Bytes} :
    Wire.parse bs = .ok b ↔ b.Fits ∧ b.Spelling bs :=
  Wire.parse_eq_ok_iff_spells decode_reads

/-! ## Serialization -/

theorem bytes_eq (b : Block) :
    Wire.bytes b = Wire.bytes b.header ++ Wire.listBytes b.transactions := by
  show (Wire.pieces b.header ++ Wire.listPieces b.transactions).flatten = _
  rw [List.flatten_append, Wire.flatten_listPieces, Wire.bytes]

/-- A block is serialized as one of its spellings. -/
theorem spelling_bytes (b : Block) : b.Spelling (Wire.bytes b) := by
  rw [bytes_eq, Wire.listBytes]
  exact ⟨_, Decoder.spellsEach_flatMap Transaction.spelling_bytes b.transactions, rfl⟩

/-- The announced length is that of the serialization. -/
theorem length_bytes (b : Block) : (Wire.bytes b).length = Wire.size b := by
  rw [bytes_eq, List.length_append, Header.length_wireBytes,
    Wire.length_listBytes Transaction.length_bytes, Wire.listSize, ← Nat.add_assoc]
  rfl

theorem serialize_eq_ok (b : Block) : Wire.serialize b = .ok (Wire.bytes b) :=
  Wire.serialize_eq_ok (length_bytes b)

theorem parse_bytes {b : Block} (hfits : b.Fits) : Wire.parse (Wire.bytes b) = .ok b :=
  parse_eq_ok_iff_spelling.mpr ⟨hfits, spelling_bytes b⟩

/-- A block is serialized into as many octets as announced. It is read back from them, with all its
digests, both if they are the whole byte string and if they stand somewhere in it; then the reader
stops right behind them. -/
theorem exists_serialize_and_read (b : Block) :
    ∃ bs, Wire.serialize b = .ok bs ∧ bs.length = b.totalSize ∧
      (b.Fits → Wire.parse bs = .ok b ∧
        ∀ (before after : Bytes) (marks : List Nat),
          Read.decode Wire.decode ⟨before ++ bs ++ after, before.length, marks⟩ =
            .ok b ⟨before ++ bs ++ after, before.length + bs.length, marks⟩) := by
  refine ⟨Wire.bytes b, serialize_eq_ok b, length_bytes b, ?_⟩
  intro hfits
  exact ⟨parse_bytes hfits, Read.decode_of_spells decode_reads ⟨hfits, spelling_bytes b⟩⟩

/-- A block in which a payment without witnesses stands between two that have some. -/
def mixed : Block where
  header := ⟨1, .zero, .zero, 0, 0, 0⟩
  transactions := [Transaction.payment, Transaction.payment.stripped, Transaction.payment]

theorem mixed_fits : mixed.Fits where
  transactions_lt := by decide
  transaction_fits := by
    simp [mixed, Transaction.payment_fits, Transaction.payment_fits.stripped]

/-- Payments of both forms are read back from one block, and the next octet is left alone. -/
theorem read_mixed :
    mixed.Fits ∧ ∃ bs, Wire.serialize mixed = .ok bs ∧ bs.length = mixed.totalSize ∧
      Wire.parse bs = .ok mixed ∧
      Read.decode Wire.decode ⟨[] ++ bs ++ [0x00], 0, []⟩ =
        .ok mixed ⟨[] ++ bs ++ [0x00], 0 + bs.length, []⟩ := by
  obtain ⟨bs, hserialize, hlength, hread⟩ := exists_serialize_and_read mixed
  obtain ⟨hparse, hdecode⟩ := hread mixed_fits
  exact ⟨mixed_fits, bs, hserialize, hlength, hparse, hdecode [] [0x00] []⟩

end LightClient.Block
