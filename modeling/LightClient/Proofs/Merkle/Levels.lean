import Mathlib.Algebra.Group.Nat.Defs
import LightClient.Merkle.Root

/-!
# Levels of a Merkle tree

Computing a root hashes pairs of nodes, one level after the other. This file names these pairs.
Whatever depends on the hash function is then stated about the finitely many pairs that a
computation really hashes.
-/

namespace LightClient

/-- A digest of which all octets are the same. -/
def Hash256.replicate (octet : UInt8) : Hash256 :=
  ⟨List.replicate 32 octet, List.length_replicate⟩

namespace Merkle

/-- Two nodes, in the order in which they are hashed. -/
abbrev NodePair := Hash256 × Hash256

/-- The node above a pair. -/
def NodePair.parent (p : NodePair) : Hash256 :=
  node p.1 p.2

/-- The pairs of a level from the left; a last node without partner is paired with itself. -/
def pairs : List Hash256 → List NodePair
  | a :: b :: rest => (a, b) :: pairs rest
  | [a] => [(a, a)]
  | [] => []

/-- The number of levels above the leaves. -/
def height : List Hash256 → Nat
  | [] => 0
  | [_] => 0
  | a :: b :: rest => height (parents (a :: b :: rest)) + 1
termination_by level => level.length
decreasing_by
  simp only [length_parents, List.length_cons]
  omega

/-- The pairs that are hashed from a level up to the root. -/
def hashedPairs : List Hash256 → List NodePair
  | [] => []
  | [_] => []
  | a :: b :: rest => pairs (a :: b :: rest) ++ hashedPairs (parents (a :: b :: rest))
termination_by level => level.length
decreasing_by
  simp only [length_parents, List.length_cons]
  omega

/-- No two different pairs of a list have the same node above them. -/
def CollisionFree (ps : List NodePair) : Prop :=
  ∀ p ∈ ps, ∀ q ∈ ps, p.parent = q.parent → p = q

instance (ps : List NodePair) : Decidable (CollisionFree ps) :=
  inferInstanceAs (Decidable (∀ p ∈ ps, ∀ q ∈ ps, p.parent = q.parent → p = q))

/-! ## Collisions -/

namespace CollisionFree

/-- Fewer pairs collide less. -/
theorem mono {ps qs : List NodePair} (h : CollisionFree qs) (hsub : ∀ p ∈ ps, p ∈ qs) :
    CollisionFree ps :=
  fun p hp q hq => h p (hsub p hp) q (hsub q hq)

/-- Two computations that do not collide do so neither in their first pairs nor in the others. -/
theorem split {ps ps' qs qs' : List NodePair}
    (h : CollisionFree ((ps ++ ps') ++ (qs ++ qs'))) :
    CollisionFree (ps ++ qs) ∧ CollisionFree (ps' ++ qs') := by
  constructor
  · apply h.mono
    intro p hp
    rcases List.mem_append.mp hp with hp | hp <;> simp [hp]
  · apply h.mono
    intro p hp
    rcases List.mem_append.mp hp with hp | hp <;> simp [hp]

/-- Without collisions a list of parents has one list of pairs below it. -/
theorem eq_of_map_parent_eq {ps qs : List NodePair} (h : CollisionFree (ps ++ qs))
    (hparents : ps.map NodePair.parent = qs.map NodePair.parent) : ps = qs := by
  induction ps generalizing qs with
  | nil => simpa using hparents
  | cons p ps ih =>
    cases qs with
    | nil => simp at hparents
    | cons q qs =>
      simp only [List.map_cons, List.cons.injEq] at hparents
      have hpq : p = q := h p (by simp) q (by simp) hparents.1
      have hrest : CollisionFree (ps ++ qs) := by
        apply h.mono
        intro r hr
        rcases List.mem_append.mp hr with hr | hr <;> simp [hr]
      rw [hpq, ih hrest hparents.2]

end CollisionFree

/-! ## One level -/

/-- A level is hashed pair by pair. -/
theorem parents_eq_map (level : List Hash256) :
    parents level = (pairs level).map NodePair.parent := by
  fun_induction pairs level with
  | case1 a b rest ih => simp [parents, ih, NodePair.parent]
  | case2 a => rfl
  | case3 => rfl

/-- Both nodes of a pair stand in the level. -/
theorem mem_of_mem_pairs {level : List Hash256} {p : NodePair} (hp : p ∈ pairs level) :
    p.1 ∈ level ∧ p.2 ∈ level := by
  fun_induction pairs level with
  | case1 a b rest ih =>
    rcases List.mem_cons.mp hp with rfl | hp
    · simp
    · obtain ⟨hleft, hright⟩ := ih hp
      simp [hleft, hright]
  | case2 a =>
    obtain rfl := List.mem_singleton.mp hp
    simp
  | case3 => simp at hp

/-- A place in a level lies below half that place in the level above. -/
theorem half_lt_length_parents {level : List Hash256} {index : Nat}
    (hindex : index < level.length) : index / 2 < (parents level).length := by
  rw [length_parents]
  omega

/-! ## The whole tree -/

/-- The root above a level of several nodes is the root above the next level, malleated if either
level is. -/
theorem rootAbove?_cons_cons (a b : Hash256) (rest : List Hash256) :
    rootAbove? (a :: b :: rest) = (rootAbove? (parents (a :: b :: rest))).map fun above =>
      ⟨above.hash, hasTwins (a :: b :: rest) || above.malleated⟩ := by
  rw [rootAbove?]
  cases rootAbove? (parents (a :: b :: rest)) <;> rfl

/-- A list of leaves has the root that stands above it as a level. -/
theorem root_eq_ok_iff {leaves : List Hash256} {r : Root} :
    root leaves = .ok r ↔ rootAbove? leaves = some r := by
  unfold root
  cases rootAbove? leaves <;> simp

/-- Equal leaves in a pair make the root malleated. -/
theorem malleated_of_hasTwins {leaves : List Hash256} {r : Root} (hroot : root leaves = .ok r)
    (htwins : hasTwins leaves = true) : r.malleated = true := by
  rw [root_eq_ok_iff] at hroot
  rcases leaves with _ | ⟨a, _ | ⟨b, rest⟩⟩
  · cases htwins
  · cases htwins
  · rw [rootAbove?_cons_cons] at hroot
    obtain ⟨above, -, rfl⟩ := Option.map_eq_some_iff.mp hroot
    rw [htwins, Bool.true_or]

/-- Two leaves have the node above them as root, and are twins if they are equal. -/
theorem root_pair (x y : Hash256) : root [x, y] = .ok ⟨node x y, x = y⟩ := by
  simp [root_eq_ok_iff, rootAbove?, parents, hasTwins]

/-- The pairs that are hashed above two leaves. -/
theorem hashedPairs_pair (x y : Hash256) : hashedPairs [x, y] = [(x, y)] := by
  simp [hashedPairs, pairs, parents]

/-- The number of levels depends on the number of leaves only. -/
theorem height_eq_of_length_eq {xs ys : List Hash256} (hlength : xs.length = ys.length) :
    height xs = height ys := by
  fun_induction height xs generalizing ys with
  | case1 =>
    obtain rfl := List.length_eq_zero_iff.mp hlength.symm
    simp [height]
  | case2 a =>
    obtain ⟨c, rfl⟩ := List.length_eq_one_iff.mp hlength.symm
    simp [height]
  | case3 a b rest ih =>
    rcases ys with _ | ⟨c, _ | ⟨d, rest'⟩⟩
    · simp at hlength
    · simp at hlength
    · have hparents : (parents (a :: b :: rest)).length = (parents (c :: d :: rest')).length := by
        rw [length_parents, length_parents, hlength]
      rw [ih hparents, height]

/-- A tree of `height` levels has room for twice as many leaves with each level. -/
theorem length_le_two_pow_height (level : List Hash256) : level.length ≤ 2 ^ height level := by
  fun_induction height level with
  | case1 => simp
  | case2 a => simp
  | case3 a b rest ih =>
    rw [length_parents] at ih
    rw [Nat.pow_succ]
    omega

/-- A tree has no more levels than it takes to have room for the leaves. -/
theorem height_le_of_length_le {level : List Hash256} {depth : Nat}
    (hroom : level.length ≤ 2 ^ depth) : height level ≤ depth := by
  fun_induction height level generalizing depth with
  | case1 => omega
  | case2 a => omega
  | case3 a b rest ih =>
    cases depth with
    | zero => simp at hroom
    | succ depth =>
      rw [Nat.pow_succ] at hroom
      have habove : (parents (a :: b :: rest)).length ≤ 2 ^ depth := by
        rw [length_parents]
        omega
      exact Nat.succ_le_succ (ih habove)

/-- Every list of leaves but the empty one has a root. -/
theorem exists_root_eq_ok {leaves : List Hash256} (hleaves : leaves ≠ []) :
    ∃ r, root leaves = .ok r := by
  simp only [root_eq_ok_iff]
  fun_induction height leaves with
  | case1 => exact absurd rfl hleaves
  | case2 a => exact ⟨⟨a, false⟩, by rw [rootAbove?]⟩
  | case3 a b rest ih =>
    obtain ⟨above, habove⟩ := ih (List.cons_ne_nil _ _)
    rw [rootAbove?_cons_cons, habove]
    exact ⟨_, rfl⟩

end Merkle

end LightClient
