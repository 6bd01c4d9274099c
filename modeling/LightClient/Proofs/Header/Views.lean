import LightClient.Proofs.Header

/-!
# The two views of a header

A header can be looked at as 80 octets or as six fields. The octets of the fields lie side by side
and fill the header, so either view determines the other. Digest, target and difficulty can be asked
of both, and so can whether the target is met: the answers are the same, and so are the faults.
-/

namespace LightClient.Header

/-- Octets and fields are views of one header: every field is what is read off the octets, and what
is asked of the fields is answered as it is of the octets. -/
structure Views (raw : RawHeader) (h : Header) : Prop where
  version_eq : h.version = raw.version
  prevBlock_eq : h.prevBlock = raw.prevBlock
  merkleRoot_eq : h.merkleRoot = raw.merkleRoot
  time_eq : h.time = raw.time
  bits_eq : h.bits = raw.bits
  nonce_eq : h.nonce = raw.nonce
  /-- The digest of the fields is that of the octets. -/
  hash_eq : h.hash = hash256 raw.bytes
  target_eq : h.target = raw.target
  difficulty_eq : h.difficulty = raw.difficulty
  meetsTarget_eq : h.meetsTarget = raw.meetsTarget

theorem meetsTarget_ofRaw (raw : RawHeader) : (ofRaw raw).meetsTarget = raw.meetsTarget := by
  have hmeets := raw_meetsTarget (ofRaw raw)
  rw [raw_ofRaw] at hmeets
  exact hmeets.symm

/-- The fields that are read off octets are a view of the header. -/
theorem views_ofRaw (raw : RawHeader) : Views raw (ofRaw raw) where
  version_eq := rfl
  prevBlock_eq := rfl
  merkleRoot_eq := rfl
  time_eq := rfl
  bits_eq := rfl
  nonce_eq := rfl
  hash_eq := hash_ofRaw raw
  target_eq := rfl
  difficulty_eq := rfl
  meetsTarget_eq := meetsTarget_ofRaw raw

/-- So are the octets in which fields are laid out. -/
theorem views_raw (h : Header) : Views h.raw h := by
  have hviews := views_ofRaw h.raw
  rwa [ofRaw_raw] at hviews

/-- Fields read off octets are laid out as the same octets, and make the same header as when they
are read off one by one. Fields that were laid out are read back, whatever they are. In both cases
the octets and the fields are views of one header. -/
theorem views_agree :
    (∀ raw : RawHeader,
      (ofRaw raw).raw = raw ∧
        Header.mk raw.version raw.prevBlock raw.merkleRoot raw.time raw.bits raw.nonce =
          ofRaw raw ∧
        Views raw (ofRaw raw)) ∧
    ∀ (version : Int32) (prevBlock merkleRoot : Hash256) (time bits nonce : UInt32),
      let h := Header.mk version prevBlock merkleRoot time bits nonce
      ofRaw h.raw = h ∧ Views h.raw h := by
  constructor
  · intro raw
    exact ⟨raw_ofRaw raw, rfl, views_ofRaw raw⟩
  · intro version prevBlock merkleRoot time bits nonce h
    exact ⟨ofRaw_raw h, views_raw h⟩

end LightClient.Header
