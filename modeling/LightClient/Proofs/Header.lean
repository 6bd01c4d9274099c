import LightClient.Header.Basic
import LightClient.Proofs.Wire

/-!
# Headers and their octets

The six fields of a header fill its octets, so what is read off the octets at the place of a field
is the field. Digest and target then do not depend on which of the two forms they are taken from.
-/

namespace LightClient

/-- A whole number of headers' octets is made of raw headers. -/
theorem RawHeader.exists_eq_flatten {bs : Bytes} (hwhole : bs.length % 80 = 0) :
    ∃ raws : List RawHeader, bs = (raws.map FixedBytes.bytes).flatten := by
  have hlength : ∀ p ∈ Bytes.chunks 80 bs, p.length = 80 :=
    fun p hp => Bytes.length_of_mem_pieces (Nat.div_mul_le_self _ _) hp
  refine ⟨(Bytes.chunks 80 bs).pmap FixedBytes.mk hlength, ?_⟩
  rw [List.map_pmap, List.pmap_eq_map, List.map_id', Bytes.flatten_chunks hwhole]

/-- Every raw header takes up 80 octets. -/
theorem RawHeader.length_of_mem_map_bytes {raws : List RawHeader} :
    ∀ p ∈ raws.map FixedBytes.bytes, p.length = 80 := by
  intro p hp
  obtain ⟨raw, _, rfl⟩ := List.mem_map.mp hp
  exact raw.length_bytes

theorem RawHeader.length_flatten (raws : List RawHeader) :
    (raws.map FixedBytes.bytes).flatten.length = raws.length * 80 := by
  rw [Bytes.length_flatten_of_forall_length length_of_mem_map_bytes, List.length_map]

theorem RawHeader.ofBytes_bytes (raw : RawHeader) : RawHeader.ofBytes raw.bytes = .ok raw := by
  rw [RawHeader.ofBytes, FixedBytes.ofBytes?_bytes]

/-- A word is read from the octets in which it was laid out. -/
theorem RawHeader.word_eq {raw : RawHeader} {offset : Nat} {hfits : offset + 4 ≤ 80} {w : UInt32}
    (hslice : (raw.bytes.drop offset).take 4 = Bytes.ofNat .little 4 w.toNat) :
    raw.word offset hfits = w := by
  have hlt : w.toNat < 256 ^ 4 := w.toNat_lt
  show UInt32.ofNat (Bytes.toNat .little ((raw.bytes.drop offset).take 4)) = w
  rw [hslice, Bytes.toNat_ofNat, Nat.mod_eq_of_lt hlt, UInt32.ofNat_toNat]

/-- A word is laid out again as the octets from which it was read. -/
theorem RawHeader.ofNat_word (raw : RawHeader) {offset : Nat} (hfits : offset + 4 ≤ 80) :
    Bytes.ofNat .little 4 (raw.word offset hfits).toNat = (raw.bytes.drop offset).take 4 := by
  have hlength : ((raw.bytes.drop offset).take 4).length = 4 := by
    rw [List.length_take, List.length_drop, raw.length_bytes]
    omega
  have hlt := Bytes.toNat_lt .little ((raw.bytes.drop offset).take 4)
  have hlayout := Bytes.ofNat_toNat .little ((raw.bytes.drop offset).take 4)
  rw [hlength] at hlt hlayout
  show Bytes.ofNat .little 4
    (UInt32.ofNat (Bytes.toNat .little ((raw.bytes.drop offset).take 4))).toNat = _
  rw [UInt32.toNat_ofNat', Nat.mod_eq_of_lt (by omega), hlayout]

namespace Header

/-- The octets of a header are its fields, so nothing of a raw header is lost. -/
theorem raw_ofRaw (raw : RawHeader) : (ofRaw raw).raw = raw := by
  have hversion : Bytes.ofNat .little 4 (ofRaw raw).version.toUInt32.toNat = raw.bytes.take 4 := by
    show Bytes.ofNat .little 4 (raw.word 0 (by decide)).toInt32.toUInt32.toNat = _
    rw [UInt32.toUInt32_toInt32, RawHeader.ofNat_word, List.drop_zero]
  have hjoin (i j : Nat) :
      raw.bytes.take i ++ (raw.bytes.drop i).take j = raw.bytes.take (i + j) :=
    List.take_add.symm
  ext1
  show Bytes.ofNat .little 4 (ofRaw raw).version.toUInt32.toNat ++
    (raw.bytes.drop 4).take 32 ++ (raw.bytes.drop 36).take 32 ++
    Bytes.ofNat .little 4 raw.time.toNat ++ Bytes.ofNat .little 4 raw.bits.toNat ++
    Bytes.ofNat .little 4 raw.nonce.toNat = raw.bytes
  rw [hversion, RawHeader.time, RawHeader.bits, RawHeader.nonce, RawHeader.ofNat_word,
    RawHeader.ofNat_word, RawHeader.ofNat_word, hjoin, hjoin, hjoin, hjoin, hjoin]
  exact List.take_of_length_le (Nat.le_of_eq raw.length_bytes)

theorem bytes_ofRaw (raw : RawHeader) : (ofRaw raw).bytes = raw.bytes :=
  congrArg FixedBytes.bytes (raw_ofRaw raw)

theorem hash_ofRaw (raw : RawHeader) : (ofRaw raw).hash = raw.hash := by
  rw [hash, bytes_ofRaw, RawHeader.hash]

/-- The fields of a header are read off its octets. -/
theorem ofRaw_raw (h : Header) : ofRaw h.raw = h := by
  have hversion : h.raw.version = h.version := by
    rw [RawHeader.version, RawHeader.word_eq (w := h.version.toUInt32), Int32.toInt32_toUInt32]
    simp [raw, bytes]
  have hprevBlock : h.raw.prevBlock = h.prevBlock := by
    ext1
    simp [RawHeader.prevBlock, FixedBytes.slice, raw, bytes]
  have hmerkleRoot : h.raw.merkleRoot = h.merkleRoot := by
    ext1
    simp [RawHeader.merkleRoot, FixedBytes.slice, raw, bytes, List.drop_append, List.take_append]
  have htime : h.raw.time = h.time := by
    apply RawHeader.word_eq
    simp [raw, bytes, List.drop_append, List.drop_eq_nil_of_le]
  have hbits : h.raw.bits = h.bits := by
    apply RawHeader.word_eq
    simp [raw, bytes, List.drop_append, List.drop_eq_nil_of_le]
  have hnonce : h.raw.nonce = h.nonce := by
    apply RawHeader.word_eq
    simp [raw, bytes, List.drop_append, List.drop_eq_nil_of_le, List.take_of_length_le]
  rw [ofRaw, hversion, hprevBlock, hmerkleRoot, htime, hbits, hnonce]

theorem raw_prevBlock (h : Header) : h.raw.prevBlock = h.prevBlock :=
  congrArg prevBlock (ofRaw_raw h)

theorem raw_merkleRoot (h : Header) : h.raw.merkleRoot = h.merkleRoot :=
  congrArg merkleRoot (ofRaw_raw h)

/-- Whether a header meets its target can be told from its octets. -/
theorem raw_meetsTarget (h : Header) : h.raw.meetsTarget = h.meetsTarget := by
  have hbits : h.raw.bits = h.bits := congrArg bits (ofRaw_raw h)
  rw [RawHeader.meetsTarget, RawHeader.target, hbits]
  rfl

/-! ## Headers on the wire -/

theorem wireBytes_eq (h : Header) : Wire.bytes h = h.bytes := by
  simp [Wire.bytes, Wire.pieces]

/-- Any 80 octets are those of one header. -/
theorem decode_exact : (Wire.decode (α := Header)).Exact (fun _ => True) Wire.bytes := by
  have hmap : (Wire.decode (α := Header)).Exact (fun _ => True) (fun h => h.raw.bytes) := by
    apply (Decoder.fixed_exact 80).map
    · intro r _
      exact ⟨trivial, raw_ofRaw r⟩
    · intro h _
      exact ⟨trivial, ofRaw_raw h⟩
  exact hmap.congr (fun _ => Iff.rfl) (fun h _ => (wireBytes_eq h).symm)

theorem length_wireBytes (h : Header) : (Wire.bytes h).length = Wire.size h := by
  rw [wireBytes_eq, length_bytes]
  rfl

end Header

end LightClient
