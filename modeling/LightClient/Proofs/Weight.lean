import Mathlib.Algebra.Order.Floor.Semifield
import Mathlib.Data.Rat.Floor
import LightClient.Proofs.Block.Grammar

/-!
# Weights and serializations

An octet outside the witnesses counts four times towards the weight, an octet of a witness once, and
so do the marker and the flag that announce witnesses. As the legacy serialization has everything
else, the weight is three times its length and once the length of the serialization in use. The two
serializations are equally long only if no input has a witness, for the marker and the flag alone
make the longer one differ; all that is said of weights by way of witnesses rests on this. A block's
weight is that of its transactions, its header and their count.
-/

namespace LightClient

namespace Wire

variable {α : Type}

/-- A sum of multiples and others is the multiple of a sum and another. -/
theorem sumBy_mul_add (k : Nat) (f g : α → Nat) (as : List α) :
    sumBy (fun a => k * f a + g a) as = k * sumBy f as + sumBy g as := by
  induction as with
  | nil => rfl
  | cons a as ih =>
    rw [sumBy, sumBy, sumBy, ih, Nat.mul_add]
    omega

end Wire

namespace Transaction

variable {tx : Transaction}

/-- Witnesses come with a marker and a flag at least. -/
theorem baseSize_add_two_le (hwitness : tx.hasWitness = true) : tx.baseSize + 2 ≤ tx.totalSize := by
  rw [totalSize, if_pos hwitness]
  omega

theorem totalSize_of_hasWitness_eq_false (hwitness : tx.hasWitness = false) :
    tx.totalSize = tx.baseSize := by
  rw [totalSize, hwitness, if_neg Bool.false_ne_true]

theorem baseSize_le_totalSize (tx : Transaction) : tx.baseSize ≤ tx.totalSize := by
  cases hwitness : tx.hasWitness with
  | true =>
    have hle := baseSize_add_two_le hwitness
    omega
  | false => exact Nat.le_of_eq (totalSize_of_hasWitness_eq_false hwitness).symm

/-- Only witnesses make a serialization longer than the legacy one. -/
theorem totalSize_eq_baseSize_iff :
    tx.totalSize = tx.baseSize ↔ ∀ i ∈ tx.inputs, i.witness = .empty := by
  rw [← hasWitness_eq_false_iff]
  constructor
  · intro hsame
    cases hwitness : tx.hasWitness with
    | true =>
      have hle := baseSize_add_two_le hwitness
      omega
    | false => rfl
  · exact totalSize_of_hasWitness_eq_false

theorem bytes_eq_legacyBytes_iff :
    Wire.bytes tx = tx.legacyBytes ↔ ∀ i ∈ tx.inputs, i.witness = .empty := by
  constructor
  · intro hsame
    have hlength := congrArg List.length hsame
    rw [length_bytes, length_legacyBytes] at hlength
    exact totalSize_eq_baseSize_iff.mp hlength
  · intro hempty
    have hwitness := hasWitness_eq_false_iff.mpr hempty
    rw [← bytes_stripped, stripped_eq_self hwitness]

/-- The weight is at its least, four times the legacy length, only without witnesses. -/
theorem weight_eq_iff : tx.weight = 4 * tx.baseSize ↔ ∀ i ∈ tx.inputs, i.witness = .empty := by
  rw [← totalSize_eq_baseSize_iff, weight]
  omega

/-! ## Virtual sizes -/

/-- A quarter of the weight, rounded up. -/
theorem virtualSize_eq_ceil (tx : Transaction) : tx.virtualSize = ⌈(tx.weight : ℚ) / 4⌉₊ := by
  apply eq_of_forall_ge_iff
  intro n
  have hquarter : (tx.weight : ℚ) / 4 ≤ n ↔ tx.weight ≤ n * 4 := by
    rw [div_le_iff₀ (by norm_num)]
    exact_mod_cast Iff.rfl
  rw [Nat.ceil_le, hquarter, virtualSize]
  omega

theorem baseSize_le_virtualSize (tx : Transaction) : tx.baseSize ≤ tx.virtualSize := by
  have hle := tx.baseSize_le_totalSize
  rw [virtualSize, weight]
  omega

theorem virtualSize_le_totalSize (tx : Transaction) : tx.virtualSize ≤ tx.totalSize := by
  have hle := tx.baseSize_le_totalSize
  rw [virtualSize, weight]
  omega

/-- Rounding up hides no witness. -/
theorem virtualSize_eq_baseSize_iff :
    tx.virtualSize = tx.baseSize ↔ ∀ i ∈ tx.inputs, i.witness = .empty := by
  have hle := tx.baseSize_le_totalSize
  rw [← totalSize_eq_baseSize_iff, virtualSize, weight]
  omega

end Transaction

/-! ## Blocks -/

namespace Block

/-- The block with every transaction in legacy form. -/
def stripped (b : Block) : Block where
  header := b.header
  transactions := b.transactions.map Transaction.stripped

/-- Header, count and the legacy serialization of each transaction. -/
def legacyBytes (b : Block) : Bytes :=
  b.header.bytes ++ CompactSize.encode b.transactions.length ++
    b.transactions.flatMap Transaction.legacyBytes

/-- It is what the block is serialized to when its transactions have no witnesses. -/
theorem bytes_stripped (b : Block) : Wire.bytes b.stripped = b.legacyBytes := by
  rw [bytes_eq, Wire.listBytes, Header.wireBytes_eq, stripped, List.length_map, List.flatMap_map,
    legacyBytes, List.append_assoc]
  simp only [Transaction.bytes_stripped]

theorem length_legacyBytes (b : Block) : b.legacyBytes.length = b.baseSize := by
  rw [legacyBytes, List.length_append, List.length_append, Header.length_bytes,
    CompactSize.length_encode, Wire.length_flatMap_eq_sumBy Transaction.length_legacyBytes,
    baseSize]

theorem weight_eq_sumBy (b : Block) :
    b.weight = 4 * (80 + CompactSize.size b.transactions.length) +
      Wire.sumBy Transaction.weight b.transactions := by
  have hsum : Wire.sumBy Transaction.weight b.transactions =
      3 * Wire.sumBy Transaction.baseSize b.transactions +
        Wire.sumBy Transaction.totalSize b.transactions :=
    Wire.sumBy_mul_add 3 Transaction.baseSize Transaction.totalSize b.transactions
  rw [hsum, weight, baseSize, totalSize]
  omega

theorem serialize_stripped (b : Block) : Wire.serialize b.stripped = .ok b.legacyBytes := by
  rw [serialize_eq_ok, bytes_stripped]

end Block

/-- The weight of a transaction is three times the length of its legacy serialization and once that
of the serialization in use, and its virtual size, a quarter of this rounded up, lies between the
two lengths. Weight and virtual size are those of the legacy serialization, and the two
serializations are the same, exactly if no input has a witness. The weight of a block is that of its
transactions and four times that of the rest, and is made of the lengths of its two serializations
in the same way. -/
theorem weight_eq_lengths :
    (∀ tx : Transaction, ∃ legacy full : Bytes,
      tx.serializeLegacy = .ok legacy ∧ legacy.length = tx.baseSize ∧
      Wire.serialize tx = .ok full ∧ full.length = tx.totalSize ∧
      tx.weight = 3 * legacy.length + full.length ∧
      tx.virtualSize = ⌈(tx.weight : ℚ) / 4⌉₊ ∧
      tx.baseSize ≤ tx.virtualSize ∧ tx.virtualSize ≤ tx.totalSize ∧
      (tx.weight = 4 * tx.baseSize ↔ ∀ i ∈ tx.inputs, i.witness = .empty) ∧
      (tx.virtualSize = tx.baseSize ↔ ∀ i ∈ tx.inputs, i.witness = .empty) ∧
      (full = legacy ↔ ∀ i ∈ tx.inputs, i.witness = .empty)) ∧
    ∀ b : Block, ∃ full : Bytes,
      Wire.serialize b.stripped = .ok b.legacyBytes ∧ Wire.serialize b = .ok full ∧
      b.weight = 4 * (80 + CompactSize.size b.transactions.length) +
        Wire.sumBy Transaction.weight b.transactions ∧
      b.weight = 3 * b.legacyBytes.length + full.length := by
  constructor
  · intro tx
    refine ⟨tx.legacyBytes, Wire.bytes tx, tx.serializeLegacy_eq_ok, tx.length_legacyBytes,
      tx.serialize_eq_ok, tx.length_bytes, ?_, tx.virtualSize_eq_ceil, tx.baseSize_le_virtualSize,
      tx.virtualSize_le_totalSize, Transaction.weight_eq_iff,
      Transaction.virtualSize_eq_baseSize_iff, Transaction.bytes_eq_legacyBytes_iff⟩
    rw [tx.length_legacyBytes, tx.length_bytes]
    rfl
  · intro b
    refine ⟨Wire.bytes b, b.serialize_stripped, b.serialize_eq_ok, b.weight_eq_sumBy, ?_⟩
    rw [b.length_legacyBytes, b.length_bytes]
    rfl

end LightClient
