import LightClient.Reader
import LightClient.Proofs.CompactSize
import LightClient.Proofs.Guards

/-!
# Exact decoders

A decoder is exact for an encoding when it takes the encodings of certain values from the front of
a suffix, gives these values, and does nothing else: what it took is the encoding of what it gave,
and whatever starts with such an encoding is taken, regardless of what follows. Exactness passes
through the ways in which decoders are put together, so it is shown once for each of them.
-/

namespace LightClient

namespace Suffix

/-- The octets `bs` come first in `s`, and `t` is what follows them. -/
def Spans (s : Suffix) (bs : Bytes) (t : Suffix) : Prop :=
  s.bytes = bs ++ t.bytes ∧ t.offset = s.offset + bs.length

theorem spans_nil_iff {s t : Suffix} : s.Spans [] t ↔ s = t := by
  cases s
  cases t
  simp [Spans, and_comm, eq_comm]

/-- A span falls into two where its octets do. -/
theorem spans_append_iff {s t : Suffix} {left right : Bytes} :
    s.Spans (left ++ right) t ↔ ∃ m, s.Spans left m ∧ m.Spans right t := by
  constructor
  · rintro ⟨hbytes, hoffset⟩
    refine ⟨⟨s.offset + left.length, right ++ t.bytes⟩, ⟨by simp [hbytes], rfl⟩, rfl, ?_⟩
    rw [hoffset, List.length_append, Nat.add_assoc]
  · rintro ⟨m, ⟨hleft, hleftOffset⟩, hright, hrightOffset⟩
    refine ⟨by rw [hleft, hright, List.append_assoc], ?_⟩
    rw [hrightOffset, hleftOffset, List.length_append, Nat.add_assoc]

/-- The octets that come first are spanned by advancing past them. -/
theorem spans_iff_advance {s t : Suffix} {bs : Bytes} :
    s.Spans bs t ↔ bs <+: s.bytes ∧ t = s.advance bs.length := by
  constructor
  · rintro ⟨hbytes, hoffset⟩
    refine ⟨⟨t.bytes, hbytes.symm⟩, ?_⟩
    cases t
    simp_all [advance]
  · rintro ⟨⟨rest, hbytes⟩, rfl⟩
    simp [Spans, advance, ← hbytes]

end Suffix

namespace Decoder

variable {α β : Type}

/-- The decoder takes the encodings of the values that fit, and nothing else. -/
def Exact (d : Decoder α) (fits : α → Prop) (enc : α → Bytes) : Prop :=
  ∀ s a t, d s = .ok a t ↔ fits a ∧ s.Spans (enc a) t

/-- The decoder takes what spells a value, and nothing else. A value can have several spellings. -/
def Reads (d : Decoder α) (spells : α → Bytes → Prop) : Prop :=
  ∀ s a t, d s = .ok a t ↔ ∃ bs, spells a bs ∧ s.Spans bs t

/-- The octets spell the values one after the other. -/
def SpellsEach (spells : α → Bytes → Prop) : List α → Bytes → Prop
  | [], bs => bs = []
  | a :: as, bs => ∃ head rest, spells a head ∧ SpellsEach spells as rest ∧ bs = head ++ rest

/-! ## Composition -/

/-- A decoder followed by another succeeds when both do. -/
theorem bind_eq_ok_iff {d : Decoder α} {f : α → Decoder β} {s t : Suffix} {b : β} :
    (d >>= f) s = .ok b t ↔ ∃ a m, d s = .ok a m ∧ f a m = .ok b t := by
  show (EStateM.bind d f) s = .ok b t ↔ _
  unfold EStateM.bind
  cases d s with
  | ok a m =>
    constructor
    · exact fun hb => ⟨a, m, rfl, hb⟩
    · rintro ⟨a', m', ha, hb⟩
      obtain ⟨rfl, rfl⟩ := EStateM.Result.ok.inj ha
      exact hb
  | error e m => simp

theorem pure_eq_ok_iff {s t : Suffix} {a b : α} :
    (pure a : Decoder α) s = .ok b t ↔ a = b ∧ s = t := by
  show EStateM.pure a s = .ok b t ↔ _
  simp [EStateM.pure]

namespace Exact

variable {d : Decoder α} {fits : α → Prop} {enc : α → Bytes}

/-- Only the values that fit and their encodings matter. -/
theorem congr {fits' : α → Prop} {enc' : α → Bytes} (hd : d.Exact fits enc)
    (hfits : ∀ a, fits a ↔ fits' a) (henc : ∀ a, fits a → enc a = enc' a) :
    d.Exact fits' enc' := by
  intro s a t
  rw [hd s a t, ← hfits a]
  constructor
  · rintro ⟨ha, hspan⟩
    exact ⟨ha, henc a ha ▸ hspan⟩
  · rintro ⟨ha, hspan⟩
    exact ⟨ha, henc a ha ▸ hspan⟩

/-- Taking nothing gives the one value. -/
theorem pure (a : α) : Exact (Pure.pure a) (fun b => b = a) (fun _ => []) := by
  intro s b t
  rw [pure_eq_ok_iff, Suffix.spans_nil_iff, eq_comm]

/-- The parts of a value, one after the other: the first part is decoded, and then the values that
have it. -/
theorem bind {f : α → Decoder β} {part : β → α} {fits' : β → Prop} {enc' : β → Bytes}
    (hd : d.Exact fits enc)
    (hf : ∀ a, fits a → (f a).Exact (fun b => part b = a ∧ fits' b) enc') :
    Exact (d >>= f) (fun b => fits (part b) ∧ fits' b) (fun b => enc (part b) ++ enc' b) := by
  intro s b t
  rw [bind_eq_ok_iff, Suffix.spans_append_iff]
  constructor
  · rintro ⟨a, m, ha, hb⟩
    obtain ⟨hfits, hspan⟩ := (hd s a m).mp ha
    obtain ⟨⟨rfl, hfits'⟩, hspan'⟩ := (hf a hfits m b t).mp hb
    exact ⟨⟨hfits, hfits'⟩, m, hspan, hspan'⟩
  · rintro ⟨⟨hfits, hfits'⟩, m, hspan, hspan'⟩
    exact ⟨part b, m, (hd _ _ _).mpr ⟨hfits, hspan⟩,
      (hf _ hfits _ _ _).mpr ⟨⟨rfl, hfits'⟩, hspan'⟩⟩

/-- Values that are in one-to-one correspondence have the same encodings. -/
theorem map {g : α → β} {inv : β → α} {fits' : β → Prop} (hd : d.Exact fits enc)
    (hg : ∀ a, fits a → fits' (g a) ∧ inv (g a) = a)
    (hinv : ∀ b, fits' b → fits (inv b) ∧ g (inv b) = b) :
    Exact (d >>= fun a => Pure.pure (g a)) fits' (fun b => enc (inv b)) := by
  intro s b t
  rw [bind_eq_ok_iff]
  constructor
  · rintro ⟨a, m, ha, hb⟩
    obtain ⟨rfl, rfl⟩ := pure_eq_ok_iff.mp hb
    obtain ⟨hfits, hspan⟩ := (hd s a m).mp ha
    obtain ⟨hfits', hinvEq⟩ := hg a hfits
    refine ⟨hfits', ?_⟩
    show s.Spans (enc (inv (g a))) m
    rwa [hinvEq]
  · rintro ⟨hfits', hspan⟩
    obtain ⟨hfits, hgEq⟩ := hinv b hfits'
    exact ⟨inv b, t, (hd _ _ _).mpr ⟨hfits, hspan⟩, pure_eq_ok_iff.mpr ⟨hgEq, rfl⟩⟩

theorem reads (hd : d.Exact fits enc) : d.Reads fun a bs => fits a ∧ bs = enc a := by
  intro s a t
  rw [hd s a t]
  constructor
  · rintro ⟨hfits, hspan⟩
    exact ⟨enc a, ⟨hfits, rfl⟩, hspan⟩
  · rintro ⟨bs, ⟨hfits, rfl⟩, hspan⟩
    exact ⟨hfits, hspan⟩

end Exact

/-! ## Several values -/

/-- A condition on values is a condition on every one of several. -/
theorem spellsEach_and_iff {fits : α → Prop} {spells : α → Bytes → Prop} {as : List α}
    {bs : Bytes} :
    SpellsEach (fun a bs => fits a ∧ spells a bs) as bs ↔
      (∀ a ∈ as, fits a) ∧ SpellsEach spells as bs := by
  induction as generalizing bs with
  | nil => simp [SpellsEach]
  | cons a as ih =>
    simp only [SpellsEach, ih, List.forall_mem_cons]
    constructor
    · rintro ⟨head, rest, ⟨hfits, hhead⟩, ⟨hall, hrest⟩, hbs⟩
      exact ⟨⟨hfits, hall⟩, head, rest, hhead, hrest, hbs⟩
    · rintro ⟨⟨hfits, hall⟩, head, rest, hhead, hrest, hbs⟩
      exact ⟨head, rest, ⟨hfits, hhead⟩, ⟨hall, hrest⟩, hbs⟩

theorem spellsEach_flatMap {spells : α → Bytes → Prop} {enc : α → Bytes}
    (henc : ∀ a, spells a (enc a)) (as : List α) : SpellsEach spells as (as.flatMap enc) := by
  induction as with
  | nil => rfl
  | cons a as ih => exact ⟨enc a, as.flatMap enc, henc a, ih, List.flatMap_cons⟩

/-- If every value has one spelling, then so do several. -/
theorem spellsEach_eq_iff {enc : α → Bytes} {as : List α} {bs : Bytes} :
    SpellsEach (fun a bs => bs = enc a) as bs ↔ bs = as.flatMap enc := by
  constructor
  · intro heach
    induction as generalizing bs with
    | nil => exact heach
    | cons a as ih =>
      obtain ⟨_, rest, rfl, hrest, rfl⟩ := heach
      rw [List.flatMap_cons, ih hrest]
  · rintro rfl
    apply spellsEach_flatMap
    exact fun _ => rfl

/-- A given number of values. -/
theorem Reads.many {d : Decoder α} {spells : α → Bytes → Prop} (hd : d.Reads spells)
    (count : Nat) :
    (Decoder.many d count).Reads fun as bs => as.length = count ∧ SpellsEach spells as bs := by
  induction count with
  | zero =>
    intro s as t
    rw [Decoder.many, pure_eq_ok_iff]
    constructor
    · rintro ⟨rfl, rfl⟩
      exact ⟨[], ⟨rfl, rfl⟩, Suffix.spans_nil_iff.mpr rfl⟩
    · rintro ⟨bs, ⟨hlength, heach⟩, hspan⟩
      obtain rfl := List.length_eq_zero_iff.mp hlength
      obtain rfl : bs = [] := heach
      exact ⟨rfl, Suffix.spans_nil_iff.mp hspan⟩
  | succ count ih =>
    intro s as t
    simp only [Decoder.many, bind_eq_ok_iff, pure_eq_ok_iff]
    constructor
    · rintro ⟨a, m, ha, as', m', has, rfl, rfl⟩
      obtain ⟨head, hhead, hspan⟩ := (hd s a m).mp ha
      obtain ⟨rest, ⟨hlength, hrest⟩, hspan'⟩ := (ih m as' m').mp has
      exact ⟨head ++ rest, ⟨by rw [List.length_cons, hlength], head, rest, hhead, hrest, rfl⟩,
        Suffix.spans_append_iff.mpr ⟨m, hspan, hspan'⟩⟩
    · rintro ⟨bs, ⟨hlength, heach⟩, hspan⟩
      cases as with
      | nil => simp at hlength
      | cons a as =>
        obtain ⟨head, rest, hhead, hrest, rfl⟩ := heach
        obtain ⟨m, hspan, hspan'⟩ := Suffix.spans_append_iff.mp hspan
        have hlength' : as.length = count := by simpa using hlength
        exact ⟨a, m, (hd s a m).mpr ⟨head, hhead, hspan⟩, as, t,
          (ih m as t).mpr ⟨rest, ⟨hlength', hrest⟩, hspan'⟩, rfl, rfl⟩

theorem Exact.many {d : Decoder α} {fits : α → Prop} {enc : α → Bytes} (hd : d.Exact fits enc)
    (count : Nat) :
    Exact (Decoder.many d count) (fun as => as.length = count ∧ ∀ a ∈ as, fits a)
      (fun as => as.flatMap enc) := by
  intro s as t
  rw [hd.reads.many count s as t]
  simp only [spellsEach_and_iff, spellsEach_eq_iff]
  constructor
  · rintro ⟨bs, ⟨hlength, hfits, rfl⟩, hspan⟩
    exact ⟨⟨hlength, hfits⟩, hspan⟩
  · rintro ⟨⟨hlength, hfits⟩, hspan⟩
    exact ⟨_, ⟨hlength, hfits, rfl⟩, hspan⟩

/-! ## Integers, digests and byte strings -/

theorem fixed_exact (n : Nat) : (fixed n).Exact (fun _ => True) FixedBytes.bytes := by
  intro s a t
  rw [Suffix.spans_iff_advance, FixedBytes.length_bytes]
  unfold fixed
  split
  next hn =>
    simp only [EStateM.Result.ok.injEq, true_and]
    constructor
    · rintro ⟨rfl, rfl⟩
      exact ⟨List.take_prefix n s.bytes, rfl⟩
    · rintro ⟨hfront, rfl⟩
      refine ⟨?_, rfl⟩
      ext1
      rw [List.prefix_iff_eq_take.mp hfront, FixedBytes.length_bytes]
  next hn =>
    simp only [reduceCtorEq, true_and, false_iff, not_and]
    intro hfront
    have hlength := hfront.length_le
    rw [FixedBytes.length_bytes] at hlength
    exact absurd hlength hn

theorem take_exact (n : Nat) : (take n).Exact (fun bs => bs.length = n) (fun bs => bs) := by
  intro s bs t
  unfold take
  simp only [bind_eq_ok_iff, pure_eq_ok_iff]
  constructor
  · rintro ⟨a, m, ha, rfl, rfl⟩
    exact ⟨a.length_bytes, ((fixed_exact n s a m).mp ha).2⟩
  · rintro ⟨hlength, hspan⟩
    exact ⟨⟨bs, hlength⟩, t, (fixed_exact n _ _ _).mpr ⟨trivial, hspan⟩, rfl, rfl⟩

/-- Octets that are not there are missed at the place where they should start. -/
theorem take_of_length_lt {n : Nat} {s : Suffix} (hshort : s.bytes.length < n) :
    take n s = .error (.outOfBounds s.offset) s := by
  apply Guards.bind_of_eq_error
  rw [fixed, dif_neg (Nat.not_le_of_lt hshort)]

theorem natural_exact (order : ByteOrder) (width : Nat) :
    (natural order width).Exact (fun n => n < 256 ^ width) (Bytes.ofNat order width) := by
  apply (take_exact width).map
  · rintro bs rfl
    exact ⟨Bytes.toNat_lt order bs, Bytes.ofNat_toNat order bs⟩
  · intro n hn
    exact ⟨Bytes.length_ofNat order width n, by rw [Bytes.toNat_ofNat, Nat.mod_eq_of_lt hn]⟩

theorem natural_of_length_lt {order : ByteOrder} {width : Nat} {s : Suffix}
    (hshort : s.bytes.length < width) :
    natural order width s = .error (.outOfBounds s.offset) s :=
  Guards.bind_of_eq_error (take_of_length_lt hshort) _

/-- An octet is its own encoding. -/
theorem byte_exact : byte.Exact (fun _ => True) (fun b => [b]) := by
  have hmap : byte.Exact (fun _ => True) (fun b => Bytes.ofNat .little 1 b.toNat) := by
    apply (natural_exact .little 1).map
    · intro n hn
      exact ⟨trivial, by rw [UInt8.toNat_ofNat']; omega⟩
    · intro b _
      have hlt := b.toNat_lt
      exact ⟨by omega, UInt8.ofNat_toNat⟩
  apply hmap.congr (fun _ => Iff.rfl)
  intro b _
  show [UInt8.ofNat b.toNat] = [b]
  rw [UInt8.ofNat_toNat]

theorem uint32_exact :
    uint32.Exact (fun _ => True) (fun n => Bytes.ofNat .little 4 n.toNat) := by
  apply (natural_exact .little 4).map
  · intro n hn
    exact ⟨trivial, by rw [UInt32.toNat_ofNat']; omega⟩
  · intro n _
    have hlt := n.toNat_lt
    exact ⟨by omega, UInt32.ofNat_toNat⟩

theorem uint64_exact :
    uint64.Exact (fun _ => True) (fun n => Bytes.ofNat .little 8 n.toNat) := by
  apply (natural_exact .little 8).map
  · intro n hn
    exact ⟨trivial, by rw [UInt64.toNat_ofNat']; omega⟩
  · intro n _
    have hlt := n.toNat_lt
    exact ⟨by omega, UInt64.ofNat_toNat⟩

/-! ## Counted data -/

theorem compactSize_exact :
    compactSize.Exact (fun n => n < 2 ^ 64) CompactSize.encode := by
  intro s n t
  rw [Suffix.spans_iff_advance, CompactSize.length_encode]
  unfold compactSize
  constructor
  · intro hok
    split at hok
    next value taken hdecode =>
      obtain ⟨rfl, rfl⟩ := EStateM.Result.ok.inj hok
      obtain ⟨hvalue, rfl, hfront⟩ := CompactSize.decode_eq_ok_iff.mp hdecode
      exact ⟨hvalue, hfront, rfl⟩
    next => simp at hok
  · rintro ⟨hn, hfront, rfl⟩
    rw [CompactSize.decode_of_isPrefix hn hfront]

theorem varBytes_exact :
    varBytes.Exact (fun bs => bs.length < 2 ^ 64)
      (fun bs => CompactSize.encode bs.length ++ bs) := by
  have htake (n : Nat) (_ : n < 2 ^ 64) :
      (take n).Exact (fun bs => bs.length = n ∧ True) (fun bs => bs) :=
    (take_exact n).congr (by simp) (fun _ _ => rfl)
  exact (compactSize_exact.bind htake).congr (by simp) (fun _ _ => rfl)

/-- A list is read from its count and what spells its values. -/
theorem Reads.list {d : Decoder α} {spells : α → Bytes → Prop} (hd : d.Reads spells) :
    (Decoder.list d).Reads fun as bs => as.length < 2 ^ 64 ∧
      ∃ rest, SpellsEach spells as rest ∧ bs = CompactSize.encode as.length ++ rest := by
  intro s as t
  rw [Decoder.list, bind_eq_ok_iff]
  constructor
  · rintro ⟨count, m, hcount, has⟩
    obtain ⟨hlt, hspan⟩ := (compactSize_exact s count m).mp hcount
    obtain ⟨rest, ⟨rfl, heach⟩, hspan'⟩ := (hd.many count m as t).mp has
    exact ⟨_, ⟨hlt, rest, heach, rfl⟩, Suffix.spans_append_iff.mpr ⟨m, hspan, hspan'⟩⟩
  · rintro ⟨_, ⟨hlt, rest, heach, rfl⟩, hspan⟩
    obtain ⟨m, hspan, hspan'⟩ := Suffix.spans_append_iff.mp hspan
    exact ⟨as.length, m, (compactSize_exact s as.length m).mpr ⟨hlt, hspan⟩,
      (hd.many as.length m as t).mpr ⟨rest, ⟨rfl, heach⟩, hspan'⟩⟩

theorem list_exact {d : Decoder α} {fits : α → Prop} {enc : α → Bytes} (hd : d.Exact fits enc) :
    (list d).Exact (fun as => as.length < 2 ^ 64 ∧ ∀ a ∈ as, fits a)
      (fun as => CompactSize.encode as.length ++ as.flatMap enc) :=
  compactSize_exact.bind fun count _ => hd.many count

end Decoder

/-! ## Decoding inside a byte string -/

/-- A byte string, cut where a decoder starts and where it stops. -/
theorem Reader.exists_spans_iff {r : Reader} {stop : Nat} {bs : Bytes} (hbs : bs ≠ []) :
    (∃ t : Suffix, t.offset = stop ∧ r.suffix.Spans bs t) ↔
      stop ≤ r.size ∧ r.region? r.offset stop = some bs := by
  have hpos : 0 < bs.length := List.length_pos_iff.mpr hbs
  constructor
  · rintro ⟨t, rfl, hbytes, hoffset⟩
    replace hbytes : r.data.drop r.offset = bs ++ t.bytes := hbytes
    replace hoffset : t.offset = r.offset + bs.length := hoffset
    have hlength := congrArg List.length hbytes
    rw [List.length_drop, List.length_append] at hlength
    constructor
    · show t.offset ≤ r.data.length
      omega
    · rw [region?, if_pos (by omega), List.drop_take, hbytes, hoffset, Nat.add_sub_cancel_left,
        List.take_left]
  · rintro ⟨hstop, hregion⟩
    unfold region? at hregion
    split at hregion
    next hle =>
      have htaken : (r.data.drop r.offset).take (stop - r.offset) = bs := by
        rw [← List.drop_take]
        exact Option.some.inj hregion
      have hlength : stop - r.offset = bs.length := by
        have hsize : stop ≤ r.data.length := hstop
        rw [← htaken, List.length_take, List.length_drop]
        omega
      refine ⟨r.suffix.advance bs.length, ?_, ?_⟩
      · show r.offset + bs.length = stop
        omega
      · rw [Suffix.spans_iff_advance]
        refine ⟨?_, rfl⟩
        show bs <+: r.data.drop r.offset
        rw [← htaken]
        exact List.take_prefix _ _
    next => simp at hregion

/-- A decoder that succeeds moves the reader to where it stops, and does nothing else to it. -/
theorem Read.decode_eq_ok_iff {α : Type} {d : Decoder α} {r : Reader} {a : α} {stop : Nat} :
    Read.decode d r = .ok a { r with offset := stop } ↔
      ∃ t : Suffix, t.offset = stop ∧ d r.suffix = .ok a t := by
  unfold Read.decode
  cases hd : d r.suffix with
  | ok b t =>
    simp only [EStateM.Result.ok.injEq]
    constructor
    · rintro ⟨rfl, hreader⟩
      exact ⟨t, congrArg Reader.offset hreader, rfl, rfl⟩
    · rintro ⟨t', rfl, rfl, rfl⟩
      exact ⟨rfl, rfl⟩
  | error e t => simp

/-- A decoder that succeeds moves the reader and changes nothing else. -/
theorem Read.eq_of_decode_eq_ok {α : Type} {d : Decoder α} {r t : Reader} {a : α}
    (hok : Read.decode d r = .ok a t) : t = { r with offset := t.offset } := by
  unfold Read.decode at hok
  cases hd : d r.suffix with
  | ok b s =>
    rw [hd] at hok
    obtain ⟨rfl, rfl⟩ := EStateM.Result.ok.inj hok
    rfl
  | error e s =>
    rw [hd] at hok
    cases hok

/-- A reader takes a value from the octets that spell it. -/
theorem Read.decode_eq_ok_iff_spells {α : Type} {d : Decoder α} {spells : α → Bytes → Prop}
    {r : Reader} {a : α} {stop : Nat} (hd : d.Reads spells) :
    Read.decode d r = .ok a { r with offset := stop } ↔
      ∃ bs, spells a bs ∧ ∃ t : Suffix, t.offset = stop ∧ r.suffix.Spans bs t := by
  rw [Read.decode_eq_ok_iff]
  constructor
  · rintro ⟨t, hstop, hok⟩
    obtain ⟨bs, hspells, hspan⟩ := (hd _ a t).mp hok
    exact ⟨bs, hspells, t, hstop, hspan⟩
  · rintro ⟨bs, hspells, t, hstop, hspan⟩
    exact ⟨t, hstop, (hd _ a t).mpr ⟨bs, hspells, hspan⟩⟩

/-- What spells a value is read wherever it stands and whatever follows. -/
theorem Read.decode_of_spells {α : Type} {d : Decoder α} {spells : α → Bytes → Prop} {a : α}
    {bs : Bytes} (hd : d.Reads spells) (hspells : spells a bs) (before after : Bytes)
    (marks : List Nat) :
    Read.decode d ⟨before ++ bs ++ after, before.length, marks⟩ =
      .ok a ⟨before ++ bs ++ after, before.length + bs.length, marks⟩ := by
  have hspan : (Suffix.ofData (before ++ bs ++ after) before.length).Spans bs
      ⟨before.length + bs.length, after⟩ := by
    refine ⟨?_, rfl⟩
    show (before ++ bs ++ after).drop before.length = bs ++ after
    rw [List.append_assoc, List.drop_left]
  exact (Read.decode_eq_ok_iff_spells hd).mpr ⟨bs, hspells, _, rfl, hspan⟩

/-! ### One decoder after another -/

/-- A reader that stands where a span ends has left what follows the span. -/
theorem Reader.suffix_of_spans {r : Reader} {bs : Bytes} {s : Suffix}
    (hspan : r.suffix.Spans bs s) : ({ r with offset := s.offset } : Reader).suffix = s := by
  obtain ⟨-, rfl⟩ := Suffix.spans_iff_advance.mp hspan
  exact congrArg (Suffix.mk (r.offset + bs.length)) List.drop_drop.symm

namespace Read

variable {α β : Type} {d : Decoder α} {spells : α → Bytes → Prop} {r m : Reader} {a : α}

theorem decode_of_eq_ok {s : Suffix} (hok : d r.suffix = .ok a s) :
    decode d r = .ok a { r with offset := s.offset } :=
  decode_eq_ok_iff.mpr ⟨s, rfl, hok⟩

theorem decode_of_eq_error {e : Error} {s : Suffix} (herror : d r.suffix = .error e s) :
    decode d r = .error e { r with offset := s.offset } := by
  rw [decode, herror]

/-- A decoder that took a value left the reader with what it left itself. -/
theorem suffix_of_decode_eq_ok (hd : d.Reads spells) (hok : decode d r = .ok a m) :
    d r.suffix = .ok a m.suffix := by
  have hm := eq_of_decode_eq_ok hok
  rw [hm, decode_eq_ok_iff] at hok
  obtain ⟨s, hstop, hrun⟩ := hok
  obtain ⟨bs, -, hspan⟩ := (hd r.suffix a s).mp hrun
  have hsuffix := Reader.suffix_of_spans hspan
  rw [hstop, ← hm] at hsuffix
  rw [hsuffix, hrun]

/-- What follows a decoder that took a value starts where it stopped. -/
theorem decode_bind_of_eq_ok (hd : d.Reads spells) (hok : decode d r = .ok a m)
    (f : α → Decoder β) : decode (d >>= f) r = decode (f a) m := by
  have hrun := Guards.bind_of_eq_ok (suffix_of_decode_eq_ok hd hok) f
  have hm := eq_of_decode_eq_ok hok
  unfold decode
  rw [hrun, hm]

/-- Nothing follows a decoder that failed. -/
theorem decode_bind_of_eq_error {e : Error} (herror : decode d r = .error e m)
    (f : α → Decoder β) : decode (d >>= f) r = .error e m := by
  cases hrun : d r.suffix with
  | error e' s =>
    rw [decode_of_eq_error hrun] at herror
    obtain ⟨rfl, rfl⟩ := EStateM.Result.error.inj herror
    exact decode_of_eq_error (Guards.bind_of_eq_error hrun f)
  | ok b s =>
    rw [decode_of_eq_ok hrun] at herror
    cases herror

/-- What is made of a value was made of one that was taken. -/
theorem decode_bind_pure_eq_ok {g : α → β} {b : β}
    (hok : decode (d >>= fun a => pure (g a)) r = .ok b m) :
    ∃ a, decode d r = .ok a m ∧ b = g a := by
  have hm := eq_of_decode_eq_ok hok
  rw [hm, decode_eq_ok_iff] at hok
  obtain ⟨s, hstop, hrun⟩ := hok
  obtain ⟨a, _, ha, hpure⟩ := Decoder.bind_eq_ok_iff.mp hrun
  obtain ⟨rfl, rfl⟩ := Decoder.pure_eq_ok_iff.mp hpure
  rw [hm]
  exact ⟨a, decode_eq_ok_iff.mpr ⟨_, hstop, ha⟩, rfl⟩

end Read

end LightClient
