import LightClient.Merkle.Branch
import LightClient.Proofs.Bytes
import LightClient.Proofs.Digest

/-!
# Branches as octets

The siblings of a branch travel one after the other, without a count. A byte string that is a whole
number of digests is the encoding of one branch for each index; any other is no branch.
-/

namespace LightClient

open Guards

/-- Digests are read from their octets, one by one. -/
theorem Hash256.mapM_ofBytes_eq_ok_iff {bss : List Bytes} {hashes : List Hash256} :
    bss.mapM ofBytes = .ok hashes ↔ bss = hashes.map FixedBytes.bytes := by
  induction bss generalizing hashes with
  | nil => rw [List.mapM_nil, pure_eq_ok_iff, List.nil_eq, List.nil_eq, List.map_eq_nil_iff]
  | cons bs bss ih =>
    simp only [List.mapM_cons, bind_eq_ok_iff, pure_eq_ok_iff, ofBytes_eq_ok_iff, ih]
    cases hashes with
    | nil => simp
    | cons hash hashes => simp

namespace Merkle.Branch

theorem bytes_eq_flatten (b : Branch) : b.bytes = (b.nodes.map FixedBytes.bytes).flatten :=
  rfl

theorem length_of_mem_pieces {b : Branch} : ∀ p ∈ b.nodes.map FixedBytes.bytes, p.length = 32 := by
  intro p hp
  obtain ⟨node, _, rfl⟩ := List.mem_map.mp hp
  exact node.length_bytes

/-- A branch takes up as many digests as it is deep. -/
theorem length_bytes (b : Branch) : b.bytes.length = 32 * b.depth := by
  rw [bytes_eq_flatten, Bytes.length_flatten_of_forall_length length_of_mem_pieces, List.length_map,
    Nat.mul_comm]
  rfl

/-- A branch is read from its octets and its index, and from nothing else. -/
theorem ofBytes_eq_ok_iff {bs : Bytes} {index : UInt64} {b : Branch} :
    ofBytes bs index = .ok b ↔ bs = b.bytes ∧ index = b.index := by
  simp only [ofBytes, refuse_eq_ok_iff, bind_eq_ok_iff, pure_eq_ok_iff, ne_eq, Decidable.not_not,
    Hash256.mapM_ofBytes_eq_ok_iff]
  constructor
  · rintro ⟨hwhole, nodes, hchunks, rfl⟩
    refine ⟨?_, rfl⟩
    rw [bytes_eq_flatten, ← hchunks, Bytes.flatten_chunks hwhole]
  · rintro ⟨rfl, rfl⟩
    refine ⟨?_, b.nodes, ?_, rfl⟩
    · rw [length_bytes, Nat.mul_mod_right]
    · rw [bytes_eq_flatten, Bytes.chunks_flatten (by omega) length_of_mem_pieces]

end Merkle.Branch

end LightClient
