import LightClient.Proofs.Merkle.Levels

/-!
# Duplicated tails

Padding pairs the last node of an odd level with itself, so a list of leaves that carries a copy of
its last node where padding would have put one has the same level above it. The same happens higher
up: a copy of the last `2 ^ k` leaves becomes a copy of a single node `k` levels above them. Such a
list has the root of the list without the copy, and it is always found out, since the copy stands
next to what it was copied from.
-/

namespace LightClient.Merkle

/-- A level, followed by a copy of its last `count` nodes. -/
def doubleTail (level : List Hash256) (count : Nat) : List Hash256 :=
  level ++ level.drop (level.length - count)

theorem length_doubleTail {level : List Hash256} {count : Nat} (hcount : count ≤ level.length) :
    (doubleTail level count).length = level.length + count := by
  rw [doubleTail, List.length_append, List.length_drop, Nat.sub_sub_self hcount]

/-! ## One level -/

/-- Nodes are paired within an even number of them, whatever follows. -/
theorem parents_append {xs : List Hash256} (heven : xs.length % 2 = 0) (ys : List Hash256) :
    parents (xs ++ ys) = parents xs ++ parents ys := by
  fun_induction parents xs with
  | case1 a b rest ih =>
    have hrest : rest.length % 2 = 0 := by
      rw [List.length_cons, List.length_cons] at heven
      omega
    rw [List.cons_append, List.cons_append, parents, ih hrest, List.cons_append]
  | case2 a => simp at heven
  | case3 => rfl

theorem hasTwins_append {xs : List Hash256} (heven : xs.length % 2 = 0) (ys : List Hash256) :
    hasTwins (xs ++ ys) = (hasTwins xs || hasTwins ys) := by
  fun_induction parents xs with
  | case1 a b rest ih =>
    have hrest : rest.length % 2 = 0 := by
      rw [List.length_cons, List.length_cons] at heven
      omega
    rw [List.cons_append, List.cons_append, hasTwins, hasTwins, ih hrest, Bool.or_assoc]
  | case2 a => simp at heven
  | case3 => rfl

/-- Leaving out whole pairs leaves out as many nodes above them. -/
theorem parents_drop (level : List Hash256) (count : Nat) :
    parents (level.drop (2 * count)) = (parents level).drop count := by
  induction count generalizing level with
  | zero => rfl
  | succ count ih =>
    rcases level with _ | ⟨a, _ | ⟨b, rest⟩⟩
    · simp [parents]
    · simp [parents, Nat.mul_succ]
    · rw [Nat.mul_succ, List.drop_succ_cons, List.drop_succ_cons, ih, parents, List.drop_succ_cons]

/-- A copy of the last node of an odd level does what padding does, and makes twins. -/
theorem parents_doubleTail_one {level : List Hash256} (hodd : level.length % 2 = 1) :
    parents (doubleTail level 1) = parents level ∧ hasTwins (doubleTail level 1) = true := by
  have hne : level ≠ [] := by
    rintro rfl
    simp at hodd
  obtain ⟨front, last, rfl⟩ : ∃ front last, level = front ++ [last] :=
    ⟨level.dropLast, level.getLast hne, (List.dropLast_concat_getLast hne).symm⟩
  have heven : front.length % 2 = 0 := by
    rw [List.length_append, List.length_singleton] at hodd
    omega
  have hdouble : doubleTail (front ++ [last]) 1 = front ++ [last, last] := by
    simp [doubleTail]
  rw [hdouble, parents_append heven, parents_append heven, hasTwins_append heven]
  simp [parents, hasTwins]

/-- A copy of pairs becomes a copy of the nodes above them. -/
theorem parents_doubleTail {level : List Hash256} {count : Nat} (heven : level.length % 2 = 0)
    (hcount : 2 * count ≤ level.length) :
    parents (doubleTail level (2 * count)) = doubleTail (parents level) count := by
  have hstart : level.length - 2 * count = 2 * ((parents level).length - count) := by
    rw [length_parents]
    omega
  rw [doubleTail, parents_append heven, hstart, parents_drop, doubleTail]

/-! ## The whole tree -/

/-- The root above a level of several nodes is the root above the next level. -/
theorem rootAbove?_of_two_le {level : List Hash256} (htwo : 2 ≤ level.length) :
    rootAbove? level = (rootAbove? (parents level)).map fun above =>
      ⟨above.hash, hasTwins level || above.malleated⟩ := by
  rcases level with _ | ⟨a, _ | ⟨b, rest⟩⟩
  · simp at htwo
  · simp at htwo
  · exact rootAbove?_cons_cons a b rest

/-- In a level that consists of an odd number of groups of `2 ^ k` nodes, but not of a single one, a
copy of the last group changes nothing about the root but the mark. -/
theorem rootAbove?_doubleTail {level : List Hash256} {m k : Nat}
    (hlength : level.length = m * 2 ^ k) (hodd : m % 2 = 1) (hm : 3 ≤ m) :
    rootAbove? (doubleTail level (2 ^ k)) = (rootAbove? level).map fun r => ⟨r.hash, true⟩ := by
  induction k generalizing level with
  | zero =>
    rw [Nat.pow_zero] at hlength ⊢
    have htwo : 2 ≤ level.length := by omega
    have htwice : 2 ≤ (doubleTail level 1).length := by
      rw [length_doubleTail (by omega)]
      omega
    obtain ⟨hparents, htwins⟩ : parents (doubleTail level 1) = parents level ∧
        hasTwins (doubleTail level 1) = true := parents_doubleTail_one (by omega)
    rw [rootAbove?_of_two_le htwice, rootAbove?_of_two_le htwo, hparents, htwins, Option.map_map]
    simp [Function.comp_def]
  | succ k ih =>
    have hgroup : 2 ^ (k + 1) = 2 * 2 ^ k := Nat.pow_succ'
    have hhalf : level.length = 2 * (m * 2 ^ k) := by rw [hlength, hgroup, Nat.mul_left_comm]
    have hwide : 3 * 2 ^ k ≤ m * 2 ^ k := Nat.mul_le_mul_right _ hm
    have hpos : 0 < 2 ^ k := Nat.two_pow_pos k
    have htwo : 2 ≤ level.length := by omega
    have htwice : 2 ≤ (doubleTail level (2 * 2 ^ k)).length := by
      rw [length_doubleTail (by omega)]
      omega
    have habove : (parents level).length = m * 2 ^ k := by
      rw [length_parents]
      omega
    rw [hgroup, rootAbove?_of_two_le htwice, rootAbove?_of_two_le htwo,
      parents_doubleTail (by omega) (by omega), ih habove, Option.map_map, Option.map_map]
    simp [Function.comp_def]

/-- A list of leaves that consists of an odd number of groups of `2 ^ k` leaves, but not of a single
one, keeps its root when a copy of the last group is appended, and is then marked as malleated. -/
theorem root_doubleTail {leaves : List Hash256} {m k : Nat}
    (hlength : leaves.length = m * 2 ^ k) (hodd : m % 2 = 1) (hm : 3 ≤ m) :
    ∃ r s, root leaves = .ok r ∧ root (doubleTail leaves (2 ^ k)) = .ok s ∧
      s.hash = r.hash ∧ s.malleated = true := by
  have hne : leaves ≠ [] := by
    rintro rfl
    have hpos : 0 < m * 2 ^ k := Nat.mul_pos (by omega) (Nat.two_pow_pos k)
    rw [← hlength, List.length_nil] at hpos
    omega
  obtain ⟨r, hroot⟩ := exists_root_eq_ok hne
  refine ⟨r, ⟨r.hash, true⟩, hroot, ?_, rfl, rfl⟩
  rw [root_eq_ok_iff] at hroot ⊢
  rw [rootAbove?_doubleTail hlength hodd hm, hroot]
  rfl

/-- Six leaves, of which the last two are appended once more. -/
theorem root_doubleTail_of_six :
    [Hash256.replicate 1, .replicate 2, .replicate 3, .replicate 4, .replicate 5,
        .replicate 6].length = 3 * 2 ^ 1 ∧
      ∃ r s, root [.replicate 1, .replicate 2, .replicate 3, .replicate 4, .replicate 5,
          .replicate 6] = .ok r ∧
        root [.replicate 1, .replicate 2, .replicate 3, .replicate 4, .replicate 5, .replicate 6,
          .replicate 5, .replicate 6] = .ok s ∧
        s.hash = r.hash ∧ s.malleated = true := by
  have hlength : [Hash256.replicate 1, .replicate 2, .replicate 3, .replicate 4, .replicate 5,
      .replicate 6].length = 3 * 2 ^ 1 := rfl
  exact ⟨hlength, root_doubleTail hlength rfl (Nat.le_refl 3)⟩

end LightClient.Merkle
