import LightClient.Proofs.Merkle.Levels

/-!
# Unmalleated trees are unique

Padding lets lists of different lengths share a root: the last node of an odd level is paired with
itself, and a longer list may carry a real pair of equal nodes in that place. Such a pair is what
marks a root as malleated. Without one on any level, pairs determine the level they were taken from,
so two trees of the same height with the same root agree level by level, down to the leaves.
-/

namespace LightClient.Merkle

/-- A level without twins is determined by its pairs: where one level pads its last node, another
one with the same pairs cannot have a real pair. -/
theorem eq_of_pairs_eq {xs ys : List Hash256} (hpairs : pairs xs = pairs ys)
    (hxs : hasTwins xs = false) (hys : hasTwins ys = false) : xs = ys := by
  fun_induction pairs xs generalizing ys with
  | case1 a b rest ih =>
    simp only [hasTwins, Bool.or_eq_false_iff, decide_eq_false_iff_not] at hxs
    rcases ys with _ | ⟨c, _ | ⟨d, rest'⟩⟩
    · simp [pairs] at hpairs
    · -- A padded node on the right would make twins of the real pair on the left.
      simp only [pairs, List.cons.injEq, Prod.mk.injEq] at hpairs
      obtain ⟨⟨rfl, rfl⟩, _⟩ := hpairs
      exact absurd rfl hxs.1
    · simp only [hasTwins, Bool.or_eq_false_iff] at hys
      simp only [pairs, List.cons.injEq, Prod.mk.injEq] at hpairs
      obtain ⟨⟨rfl, rfl⟩, hrest⟩ := hpairs
      rw [ih hrest hxs.2 hys.2]
  | case2 a =>
    rcases ys with _ | ⟨c, _ | ⟨d, rest'⟩⟩
    · simp [pairs] at hpairs
    · simp only [pairs, List.cons.injEq, Prod.mk.injEq] at hpairs
      rw [hpairs.1.1]
    · simp only [hasTwins, Bool.or_eq_false_iff, decide_eq_false_iff_not] at hys
      simp only [pairs, List.cons.injEq, Prod.mk.injEq] at hpairs
      obtain ⟨⟨rfl, rfl⟩, _⟩ := hpairs
      exact absurd rfl hys.1
  | case3 =>
    rcases ys with _ | ⟨c, _ | ⟨d, rest'⟩⟩
    · rfl
    · simp [pairs] at hpairs
    · simp [pairs] at hpairs

/-- Two levels without twins that have the same next level are the same, without a collision. -/
theorem eq_of_parents_eq {xs ys : List Hash256} (hparents : parents xs = parents ys)
    (hcollision : CollisionFree (pairs xs ++ pairs ys))
    (hxs : hasTwins xs = false) (hys : hasTwins ys = false) : xs = ys := by
  rw [parents_eq_map, parents_eq_map] at hparents
  exact eq_of_pairs_eq (hcollision.eq_of_map_parent_eq hparents) hxs hys

/-- Levels at the same distance below the same root are the same, if nothing above them or in them
is malleated. -/
theorem eq_of_rootAbove?_eq {xs ys : List Hash256} {r s : Root}
    (hxs : rootAbove? xs = some r) (hys : rootAbove? ys = some s)
    (hheight : height xs = height ys) (hroot : r.hash = s.hash)
    (hr : r.malleated = false) (hs : s.malleated = false)
    (hcollision : CollisionFree (hashedPairs xs ++ hashedPairs ys)) : xs = ys := by
  fun_induction height xs generalizing ys r s with
  | case1 => simp [rootAbove?] at hxs
  | case2 a =>
    rcases ys with _ | ⟨c, _ | ⟨d, rest'⟩⟩
    · simp [rootAbove?] at hys
    · simp only [rootAbove?, Option.some.injEq] at hxs hys
      subst hxs hys
      exact congrArg ([·]) hroot
    · simp [height] at hheight
  | case3 a b rest ih =>
    rcases ys with _ | ⟨c, _ | ⟨d, rest'⟩⟩
    · simp [height] at hheight
    · simp [height] at hheight
    · rw [rootAbove?_cons_cons] at hxs hys
      obtain ⟨r', hr', rfl⟩ := Option.map_eq_some_iff.mp hxs
      obtain ⟨s', hs', rfl⟩ := Option.map_eq_some_iff.mp hys
      simp only [Bool.or_eq_false_iff] at hr hs
      rw [hashedPairs, hashedPairs] at hcollision
      rw [height, Nat.add_right_cancel_iff] at hheight
      obtain ⟨hcollisionHere, hcollisionAbove⟩ := hcollision.split
      have hparents := ih hr' hs' hheight hroot hr.2 hs.2 hcollisionAbove
      exact eq_of_parents_eq hparents hcollisionHere hr.1 hs.1

/-- Two lists of leaves that reach the same unmalleated root in the same number of levels are the
same list. The only way around this is a collision among the pairs that were hashed. -/
theorem leaves_eq_of_root_eq {xs ys : List Hash256} {r s : Root}
    (hxs : root xs = .ok r) (hys : root ys = .ok s) (hheight : height xs = height ys)
    (hroot : r.hash = s.hash) (hr : r.malleated = false) (hs : s.malleated = false)
    (hcollision : CollisionFree (hashedPairs xs ++ hashedPairs ys)) : xs = ys :=
  eq_of_rootAbove?_eq (root_eq_ok_iff.mp hxs) (root_eq_ok_iff.mp hys) hheight hroot hr hs
    hcollision

/-- Two leaves that differ. -/
theorem leaves_eq_of_root_eq_of_two :
    root [.replicate 1, .replicate 2] = .ok ⟨node (.replicate 1) (.replicate 2), false⟩ ∧
      CollisionFree (hashedPairs [.replicate 1, .replicate 2] ++
        hashedPairs [.replicate 1, .replicate 2]) ∧
      [Hash256.replicate 1, .replicate 2] = [Hash256.replicate 1, .replicate 2] := by
  have hroot : root [.replicate 1, .replicate 2] =
      .ok ⟨node (.replicate 1) (.replicate 2), false⟩ := by
    rw [root_pair]
    rfl
  have hcollision : CollisionFree (hashedPairs [.replicate 1, .replicate 2] ++
      hashedPairs [.replicate 1, .replicate 2]) := by
    rw [hashedPairs_pair]
    intro p hp q hq _
    rw [List.eq_of_mem_replicate (n := 2) hp, List.eq_of_mem_replicate (n := 2) hq]
  exact ⟨hroot, hcollision, leaves_eq_of_root_eq hroot hroot rfl rfl rfl rfl hcollision⟩

end LightClient.Merkle
