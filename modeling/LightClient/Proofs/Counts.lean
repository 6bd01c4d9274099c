import LightClient.Proofs.Block.Grammar

/-!
# Announced counts

A list starts with the number of its values, which can be as large as a compact size. It is read
only if as many values follow, and each of them takes up some octets. So a count that is larger than
the number of octets behind it is refused before more values were taken than there were octets.
-/

namespace LightClient

namespace Decoder

variable {α : Type} {d : Decoder α} {spells : α → Bytes → Prop} {least : Nat}

/-- Several values are spelled in at least `least` octets each, if every single one is. -/
theorem mul_length_le_of_spellsEach (hleast : ∀ a bs, spells a bs → least ≤ bs.length)
    {as : List α} {bs : Bytes} (heach : SpellsEach spells as bs) :
    least * as.length ≤ bs.length := by
  induction as generalizing bs with
  | nil => exact Nat.zero_le _
  | cons a as ih =>
    obtain ⟨head, rest, hhead, hrest, rfl⟩ := heach
    have hfirst := hleast a head hhead
    have hothers := ih hrest
    rw [List.length_cons, List.length_append, Nat.mul_succ]
    omega

/-- Values that were taken one after the other took up octets that were left. -/
theorem mul_length_le_of_many_eq_ok (hd : d.Reads spells)
    (hleast : ∀ a bs, spells a bs → least ≤ bs.length) {count : Nat} {s t : Suffix} {as : List α}
    (hok : many d count s = .ok as t) :
    as.length = count ∧ s.offset + least * as.length ≤ t.offset ∧
      least * as.length ≤ s.bytes.length := by
  obtain ⟨bs, ⟨hlength, heach⟩, hbytes, hoffset⟩ := (hd.many count s as t).mp hok
  have hbs := mul_length_le_of_spellsEach hleast heach
  have htotal := congrArg List.length hbytes
  rw [List.length_append] at htotal
  exact ⟨hlength, by omega, by omega⟩

/-- Of several values all are taken, or some first ones up to one that cannot be. -/
theorem many_cases (d : Decoder α) (count : Nat) (s : Suffix) :
    (∃ as t, many d count s = .ok as t) ∨
      ∃ as m e t, many d as.length s = .ok as m ∧ d m = .error e t ∧
        many d count s = .error e t := by
  induction count generalizing s with
  | zero => exact .inl ⟨[], s, rfl⟩
  | succ count ih =>
    cases hfirst : d s with
    | error e t => exact .inr ⟨[], s, e, t, rfl, hfirst, Guards.bind_of_eq_error hfirst _⟩
    | ok a m =>
      have hothers (n : Nat) : many d (n + 1) s = (many d n >>= fun as => pure (a :: as)) m :=
        Guards.bind_of_eq_ok hfirst _
      obtain ⟨as, t, hok⟩ | ⟨as, m', e, t, hok, hnext, herror⟩ := ih m
      · exact .inl ⟨a :: as, t, (hothers count).trans (Guards.bind_of_eq_ok hok _)⟩
      · exact .inr ⟨a :: as, m', e, t, (hothers as.length).trans (Guards.bind_of_eq_ok hok _),
          hnext, (hothers count).trans (Guards.bind_of_eq_error herror _)⟩

end Decoder

/-! ## Lists -/

/-- The outcome of decoding a list whose count stands at the reader's offset is not larger than what
follows the count. -/
structure CountBounds {α β : Type} (d : Decoder α) (least : Nat) (values : β → List α)
    (r : Reader) (outcome : EStateM.Result Error Reader β) : Prop where
  /-- What is decoded has as many values as announced, and took up at least `least` octets for each
  of them behind the count. -/
  taken : ∀ b t, outcome = .ok b t →
    ∃ m, Read.decode Decoder.compactSize r = .ok (values b).length m ∧
      m.offset + least * (values b).length ≤ t.offset
  /-- A count that is larger than the number of octets left behind it is refused. The values up to
  the one that could not be taken are no more than those octets. -/
  refused : ∀ count m, Read.decode Decoder.compactSize r = .ok count m → m.left < count →
    ∃ as u e t, as.length ≤ m.left ∧ Read.decode (Decoder.many d as.length) m = .ok as u ∧
      Read.decode d u = .error e t ∧ outcome = .error e t

namespace CountBounds

variable {α β : Type} {d : Decoder α} {spells : α → Bytes → Prop} {least : Nat}

/-- A list is bounded by its octets if its values are spelled in some octets each. -/
theorem list (hd : d.Reads spells) (hpos : 0 < least)
    (hleast : ∀ a bs, spells a bs → least ≤ bs.length) (r : Reader) :
    CountBounds d least id r (Read.decode (Decoder.list d) r) := by
  have hbehind {count : Nat} {m : Reader}
      (hcount : Read.decode Decoder.compactSize r = .ok count m) :
      Read.decode (Decoder.list d) r = Read.decode (Decoder.many d count) m :=
    Read.decode_bind_of_eq_ok Decoder.compactSize_exact.reads hcount (Decoder.many d)
  constructor
  · intro as t hok
    cases hcount : Read.decode Decoder.compactSize r with
    | error e m =>
      have herror := Read.decode_bind_of_eq_error hcount (Decoder.many d)
      cases herror.symm.trans hok
    | ok count m =>
      rw [hbehind hcount] at hok
      obtain ⟨rfl, hoffset, -⟩ := Decoder.mul_length_le_of_many_eq_ok hd hleast
        (Read.suffix_of_decode_eq_ok (hd.many count) hok)
      exact ⟨m, rfl, hoffset⟩
  · intro count m hcount hfew
    have hleft : m.suffix.bytes.length = m.left := List.length_drop
    have hfits {as : List α} {n : Nat} {t : Suffix} (hok : Decoder.many d n m.suffix = .ok as t) :
        as.length = n ∧ as.length ≤ m.left := by
      obtain ⟨hlength, -, hmul⟩ := Decoder.mul_length_le_of_many_eq_ok hd hleast hok
      have hone := Nat.le_mul_of_pos_left as.length hpos
      exact ⟨hlength, by omega⟩
    rw [hbehind hcount]
    -- If all values were taken, there would be as many octets as values.
    obtain ⟨as, t, hok⟩ | ⟨as, u, e, t, hok, hnext, herror⟩ := Decoder.many_cases d count m.suffix
    · have hall := hfits hok
      omega
    · obtain ⟨_, -, hspan⟩ := (hd.many as.length _ _ _).mp hok
      rw [← Reader.suffix_of_spans hspan] at hnext
      exact ⟨as, _, e, _, (hfits hok).2, Read.decode_of_eq_ok hok, Read.decode_of_eq_error hnext,
        Read.decode_of_eq_error herror⟩

/-- What is made of a list is bounded as the list is. -/
theorem map {values : β → List α} {g : List α → β} {r : Reader}
    (hlist : CountBounds d least id r (Read.decode (Decoder.list d) r))
    (hvalues : ∀ as, values (g as) = as) :
    CountBounds d least values r
      (Read.decode (Decoder.list d >>= fun as => pure (g as)) r) := by
  constructor
  · intro b t hok
    obtain ⟨as, has, rfl⟩ := Read.decode_bind_pure_eq_ok hok
    rw [hvalues]
    exact hlist.taken as t has
  · intro count m hcount hfew
    obtain ⟨as, u, e, t, hlength, hok, hnext, herror⟩ := hlist.refused count m hcount hfew
    exact ⟨as, u, e, t, hlength, hok, hnext, Read.decode_bind_of_eq_error herror _⟩

end CountBounds

/-! ## The least lengths of values -/

theorem Script.length_bytes_pos (s : Script) : 0 < (Wire.bytes s).length := by
  have hpos := CompactSize.size_pos s.bytes.length
  rw [length_bytes]
  exact Nat.add_pos_left hpos _

/-- An outpoint, the length of a script and a sequence number. -/
theorem Input.le_length_bytes (i : Input) : 41 ≤ (Wire.bytes i).length := by
  have hscript := i.scriptSig.length_bytes_pos
  have houtpoint : (Wire.bytes i.prevout).length = 36 := i.prevout.length_bytes
  rw [bytes_eq, List.length_append, List.length_append, Bytes.length_ofNat]
  omega

/-- An amount and the length of a script. -/
theorem Output.le_length_bytes (o : Output) : 9 ≤ (Wire.bytes o).length := by
  have hscript := o.scriptPubKey.length_bytes_pos
  rw [bytes_eq, List.length_append, Bytes.length_ofNat]
  omega

theorem Wire.length_listBytes_pos {α : Type} [Wire α] (as : List α) :
    0 < (Wire.listBytes as).length := by
  have hpos := CompactSize.size_pos as.length
  rw [Wire.listBytes, List.length_append, CompactSize.length_encode]
  omega

/-- A version, two counts and a lock time. -/
theorem Transaction.le_length_of_spelling {tx : Transaction} {bs : Bytes}
    (hspelling : tx.Spelling bs) : 10 ≤ bs.length := by
  obtain ⟨segwit, -, rfl⟩ := spelling_iff.mp hspelling
  have hinputs := Wire.length_listBytes_pos tx.inputs
  have houtputs := Wire.length_listBytes_pos tx.outputs
  simp only [bodyBytes, List.length_append, Bytes.length_ofNat]
  omega

/-- Lists of inputs, outputs, witness items and transactions are read only with as many values as
announced, each of which takes up at least 41, 9, 1 or 10 octets. A count beyond the octets that are
left is refused, and no more values than there were octets are taken before. The transactions of a
block are counted behind its header. -/
theorem counts_bounded :
    (∀ r, CountBounds Wire.decode 41 id r
      (Read.decode (Decoder.list (Wire.decode (α := Input))) r)) ∧
    (∀ r, CountBounds Wire.decode 9 id r
      (Read.decode (Decoder.list (Wire.decode (α := Output))) r)) ∧
    (∀ r, CountBounds Decoder.varBytes 1 Witness.items r
      (Read.decode (Wire.decode (α := Witness)) r)) ∧
    ∀ r, (∃ e t, Read.decode (Wire.decode (α := Header)) r = .error e t ∧
        Read.decode (Wire.decode (α := Block)) r = .error e t) ∨
      ∃ header h, Read.decode (Wire.decode (α := Header)) r = .ok header h ∧
        CountBounds Wire.decode 10 Block.transactions h
          (Read.decode (Wire.decode (α := Block)) r) := by
  refine ⟨fun r => ?_, fun r => ?_, fun r => ?_, fun r => ?_⟩
  · apply CountBounds.list Input.decode_exact.reads (by decide)
    rintro i bs ⟨-, rfl⟩
    exact i.le_length_bytes
  · apply CountBounds.list Output.decode_exact.reads (by decide)
    rintro o bs ⟨-, rfl⟩
    exact o.le_length_bytes
  · have hitems := CountBounds.list Decoder.varBytes_exact.reads Nat.one_pos (r := r) <| by
      rintro item bs ⟨-, rfl⟩
      have hpos := CompactSize.size_pos item.length
      rw [List.length_append, CompactSize.length_encode]
      omega
    exact hitems.map fun _ => rfl
  · cases hheader : Read.decode (Wire.decode (α := Header)) r with
    | error e t => exact .inl ⟨e, t, rfl, Read.decode_bind_of_eq_error hheader _⟩
    | ok header h =>
      have htransactions := CountBounds.list Transaction.decode_reads (by decide) (r := h)
        fun tx bs hspells => Transaction.le_length_of_spelling hspells.2
      have hblock : Read.decode (Wire.decode (α := Block)) r =
          Read.decode (Decoder.list Wire.decode >>= fun transactions =>
            pure (Block.mk header transactions)) h :=
        Read.decode_bind_of_eq_ok Header.decode_exact.reads hheader _
      refine .inr ⟨header, h, rfl, ?_⟩
      rw [hblock]
      exact htransactions.map fun _ => rfl

/-- The largest count is announced, and two empty items follow: no more than two are taken. -/
theorem counts_bounded_of_largest :
    let data : Bytes := [0xff, 0xff, 0xff, 0xff, 0xff, 0xff, 0xff, 0xff, 0xff, 0x00, 0x00]
    Read.decode Decoder.compactSize ⟨data, 0, []⟩ = .ok (2 ^ 64 - 1) ⟨data, 9, []⟩ ∧
      ∃ as u e t, as.length ≤ 2 ∧
        Read.decode (Decoder.many Decoder.varBytes as.length) ⟨data, 9, []⟩ = .ok as u ∧
        Read.decode Decoder.varBytes u = .error e t ∧
        Read.decode (Wire.decode (α := Witness)) ⟨data, 0, []⟩ = .error e t := by
  intro data
  have hcount : Read.decode Decoder.compactSize ⟨data, 0, []⟩ = .ok (2 ^ 64 - 1) ⟨data, 9, []⟩ :=
    rfl
  exact ⟨hcount, (counts_bounded.2.2.1 ⟨data, 0, []⟩).refused _ _ hcount (by decide)⟩

end LightClient
