import LightClient.Proofs.Merkle.Climb
import LightClient.Proofs.Merkle.Encoding

/-!
# Completeness of Merkle branches

The branch of a leaf leads to the root. On every level the node that was climbed to stands at half
the index of the node before, since the sibling in the branch is the node that was its partner when
the root was computed.
-/

namespace LightClient.Merkle

/-- A branch has one sibling for each level. -/
theorem length_siblings (level : List Hash256) (index : Nat) :
    (siblings level index).length = height level := by
  fun_induction height level generalizing index with
  | case1 => simp [siblings]
  | case2 a => simp [siblings]
  | case3 a b rest ih => rw [siblings_cons_cons, List.length_cons, ih]

/-- Hashed with its sibling, a node gives the node at half its index in the level above. -/
theorem parents_getElem? {level : List Hash256} {index : Nat} {current sibling : Hash256}
    (hcurrent : level[index]? = some current)
    (hsibling : level[siblingIndex index level.length]? = some sibling) :
    (parents level)[index / 2]? = some (orient index current sibling).parent := by
  rw [parents_eq_map, List.getElem?_map, pairs_getElem? hcurrent hsibling]
  rfl

/-- Climbing past its siblings leads from any node of a level to the root above the level. -/
theorem climb_siblings {level : List Hash256} {index : Nat} {current : Hash256} {r : Root}
    (hcurrent : level[index]? = some current) (hroot : rootAbove? level = some r) :
    Branch.climb (siblings level index) index current = r.hash := by
  fun_induction height level generalizing index current r with
  | case1 => simp at hcurrent
  | case2 a =>
    obtain ⟨hindex, hcurrentEq⟩ := List.getElem?_eq_some_iff.mp hcurrent
    rw [rootAbove?] at hroot
    obtain rfl := Option.some.inj hroot
    simpa [siblings, Branch.climb] using hcurrentEq.symm
  | case3 a b rest ih =>
    rw [rootAbove?_cons_cons] at hroot
    obtain ⟨s, hs, rfl⟩ := Option.map_eq_some_iff.mp hroot
    have hlt : siblingIndex index (rest.length + 2) < (a :: b :: rest).length :=
      siblingIndex_lt (by omega)
    have hsibling := List.getElem?_eq_getElem hlt
    have habove := ih (parents_getElem? hcurrent hsibling) hs
    rw [siblings_cons_cons, Branch.climb_cons, List.getD_eq_getElem?_getD, hsibling]
    exact habove

/-- A leaf has a branch: its siblings, and its index if that can be written. -/
theorem exists_branch_eq_ok {leaves : List Hash256} {index : Nat}
    (hlength : leaves.length ≤ 2 ^ 64) (hindex : index < leaves.length) :
    ∃ b, branch leaves index = .ok b ∧ b.index.toNat = index ∧ b.nodes = siblings leaves index := by
  have htoNat : (UInt64.ofNat index).toNat = index := by
    rw [UInt64.toNat_ofNat']
    omega
  exact ⟨_, if_pos hindex, htoNat, rfl⟩

/-- The branch of a leaf leads to the root, if the index of the leaf can be written. -/
theorem verifies_of_branch_eq_ok {leaves : List Hash256} {r : Root} {index : Nat} {leaf : Hash256}
    {b : Branch} (hlength : leaves.length ≤ 2 ^ 64) (hroot : root leaves = .ok r)
    (hleaf : leaves[index]? = some leaf) (hbranch : branch leaves index = .ok b) :
    b.verifies leaf r.hash = .ok true := by
  have hindex : index < leaves.length := (List.getElem?_eq_some_iff.mp hleaf).1
  obtain ⟨b', hb', hindexEq, hnodes⟩ := exists_branch_eq_ok hlength hindex
  obtain rfl := Except.ok.inj (hb'.symm.trans hbranch)
  rw [Branch.verifies_eq_ok_true_iff, Branch.impliedRoot_eq_ok_iff, Branch.depth, hindexEq, hnodes]
  constructor
  · have hroom := length_le_two_pow_height leaves
    rw [length_siblings]
    omega
  · exact climb_siblings hleaf (root_eq_ok_iff.mp hroot)

/-- There is a branch for each leaf, and for no other index. It has as many nodes as are needed to
tell the leaves apart, implies the root of the tree, and is read again from its octets. -/
theorem exists_branch_of_leaf {leaves : List Hash256} (hlength : leaves.length < 2 ^ 64)
    (index : Nat) :
    (branch leaves index = .error (.indexOutOfRange index leaves.length) ↔
        leaves.length ≤ index) ∧
      ∀ hindex : index < leaves.length, ∃ b r,
        branch leaves index = .ok b ∧ b.index.toNat = index ∧
          leaves.length ≤ 2 ^ b.depth ∧ (∀ d, leaves.length ≤ 2 ^ d → b.depth ≤ d) ∧
          root leaves = .ok r ∧ b.impliedRoot leaves[index] = .ok r.hash ∧
          Branch.ofBytes b.bytes (UInt64.ofNat index) = .ok b := by
  constructor
  · unfold branch
    by_cases hindex : index < leaves.length
    · rw [if_pos hindex]
      exact ⟨nofun, fun hle => absurd hindex (Nat.not_lt.mpr hle)⟩
    · rw [if_neg hindex]
      exact ⟨fun _ => Nat.not_lt.mp hindex, fun _ => rfl⟩
  · intro hindex
    have hleaf := List.getElem?_eq_getElem hindex
    obtain ⟨b, hbranch, hindexEq, hnodes⟩ := exists_branch_eq_ok (Nat.le_of_lt hlength) hindex
    obtain ⟨r, hroot⟩ := exists_root_eq_ok (List.ne_nil_of_length_pos (Nat.zero_lt_of_lt hindex))
    have hverifies := verifies_of_branch_eq_ok (Nat.le_of_lt hlength) hroot hleaf hbranch
    have hdepth : b.depth = height leaves := by
      rw [Branch.depth, hnodes, length_siblings]
    refine ⟨b, r, hbranch, hindexEq, ?_, ?_, hroot, Branch.verifies_eq_ok_true_iff.mp hverifies, ?_⟩
    · rw [hdepth]
      exact length_le_two_pow_height leaves
    · intro d hroom
      rw [hdepth]
      exact height_le_of_length_le hroom
    · rw [Branch.ofBytes_eq_ok_iff, ← hindexEq, UInt64.ofNat_toNat]
      exact ⟨rfl, rfl⟩

/-- The last of three leaves, which is its own sibling. -/
theorem exists_branch_of_leaf_last_of_three :
    [Hash256.replicate 1, .replicate 2, .replicate 3].length < 2 ^ 64 ∧
      ∃ b r, branch [.replicate 1, .replicate 2, .replicate 3] 2 = .ok b ∧ b.depth = 2 ∧
        root [.replicate 1, .replicate 2, .replicate 3] = .ok r ∧
        b.impliedRoot (.replicate 3) = .ok r.hash := by
  have hlength : [Hash256.replicate 1, .replicate 2, .replicate 3].length < 2 ^ 64 := by decide
  obtain ⟨b, r, hbranch, -, hroom, hleast, hroot, himplied, -⟩ :=
    (exists_branch_of_leaf hlength 2).2 (by decide)
  refine ⟨hlength, b, r, hbranch, ?_, hroot, himplied⟩
  have hle : b.depth ≤ 2 := hleast 2 (by decide)
  have hlt : 1 < b.depth := (Nat.pow_lt_pow_iff_right Nat.one_lt_two).mp hroom
  omega

end LightClient.Merkle
