import LightClient.Proofs.Merkle.Levels

/-!
# Messages that do not collide

Nothing can be concluded from a digest unless the messages in question are told apart by their
digests. As with the pairs of a Merkle tree this is said of the finitely many messages that some
computation really hashes; the message of a pair of nodes is one after the other.
-/

namespace LightClient

/-- The digest of two parts is that of the parts one after the other. -/
theorem hash256Parts_pair (left right : Bytes) :
    hash256Parts [left, right] = hash256 (left ++ right) := by
  simp [hash256Parts]

namespace Hash256

/-- No two different messages of a list have the same digest. -/
def CollisionFree (messages : List Bytes) : Prop :=
  ∀ m ∈ messages, ∀ n ∈ messages, hash256 m = hash256 n → m = n

instance (messages : List Bytes) : Decidable (CollisionFree messages) :=
  inferInstanceAs (Decidable (∀ m ∈ messages, ∀ n ∈ messages, hash256 m = hash256 n → m = n))

end Hash256

namespace Merkle

/-- What is hashed for the node above a pair. -/
def NodePair.message (p : NodePair) : Bytes :=
  p.1.bytes ++ p.2.bytes

theorem NodePair.parent_eq (p : NodePair) : p.parent = hash256 p.message :=
  hash256Parts_pair p.1.bytes p.2.bytes

/-- Nodes have a fixed length, so a pair can be told from its message. -/
theorem NodePair.message_inj {p q : NodePair} (hmessage : p.message = q.message) : p = q := by
  have hlength : p.1.bytes.length = q.1.bytes.length := by
    rw [FixedBytes.length_bytes, FixedBytes.length_bytes]
  obtain ⟨hleft, hright⟩ := List.append_inj hmessage hlength
  exact Prod.ext (FixedBytes.ext hleft) (FixedBytes.ext hright)

end Merkle

namespace Hash256.CollisionFree

variable {messages : List Bytes}

/-- Fewer messages collide less. -/
theorem mono {fewer : List Bytes} (h : CollisionFree messages) (hsub : ∀ m ∈ fewer, m ∈ messages) :
    CollisionFree fewer :=
  fun m hm n hn => h m (hsub m hm) n (hsub n hn)

/-- Pairs whose messages do not collide have different nodes above them. -/
theorem pairs (h : CollisionFree messages) {ps : List Merkle.NodePair}
    (hps : ∀ p ∈ ps, p.message ∈ messages) : Merkle.CollisionFree ps := by
  intro p hp q hq hparent
  rw [Merkle.NodePair.parent_eq, Merkle.NodePair.parent_eq] at hparent
  exact Merkle.NodePair.message_inj (h _ (hps p hp) _ (hps q hq) hparent)

/-- Two lists that have the same digests in the same order agree in whatever can be told from the
messages. -/
theorem map_eq (h : CollisionFree messages) {α β : Type} {f : α → Bytes} {g : α → β}
    {xs ys : List α} (hxs : ∀ x ∈ xs, f x ∈ messages) (hys : ∀ y ∈ ys, f y ∈ messages)
    (hg : ∀ x ∈ xs, ∀ y ∈ ys, f x = f y → g x = g y)
    (hdigests : xs.map (fun x => hash256 (f x)) = ys.map (fun y => hash256 (f y))) :
    xs.map g = ys.map g := by
  induction xs generalizing ys with
  | nil =>
    obtain rfl := List.map_eq_nil_iff.mp hdigests.symm
    rfl
  | cons x xs ih =>
    cases ys with
    | nil => simp at hdigests
    | cons y ys =>
      simp only [List.map_cons, List.cons.injEq] at hdigests
      simp only [List.forall_mem_cons] at hxs hys hg
      have hmessage : f x = f y := h _ hxs.1 _ hys.1 hdigests.1
      have htail : xs.map g = ys.map g :=
        ih hxs.2 hys.2 (fun x' hx' => (hg.2 x' hx').2) hdigests.2
      rw [List.map_cons, List.map_cons, hg.1.1 hmessage, htail]

end Hash256.CollisionFree

end LightClient
