import LightClient.Header.Chain
import LightClient.Proofs.Guards
import LightClient.Proofs.Header

/-!
# Chains of headers, piece by piece

A run of headers is checked from the front with two things carried along: the digest that the next
header must name, and the work so far. The digest matters to one header only, and the work to none,
so a run that is cut in two is checked by checking both parts and the one link between them. The cap
on the work comes into play only for runs of more headers than any chain has.
-/

namespace LightClient.Header

/-! ## One header -/

/-- The difficulty of a header's target, if the header's digest meets it. -/
def ownWork (h : Header) : Except Error Nat := do
  let target ← h.target.mapError Error.target
  if target.isMetBy h.hash = false then throw .insufficientWork
  target.difficulty.mapError Error.target

/-- A header has work of its own when its digest meets its target. -/
theorem ownWork_eq_ok_iff {h : Header} {work : Nat} :
    h.ownWork = .ok work ↔
      ∃ target, h.target = .ok target ∧ target.isMetBy h.hash = true ∧
        target.difficulty = .ok work := by
  simp only [ownWork, Guards.bind_eq_ok_iff, Guards.refuse_eq_ok_iff, Guards.mapError_eq_ok_iff,
    Bool.not_eq_false]

/-- The work of one header leaves room for that of 2^32 headers below the cap. -/
theorem ownWork_lt {h : Header} {work : Nat} (hok : h.ownWork = .ok work) : work < 2 ^ 224 := by
  obtain ⟨target, _, _, hdifficulty⟩ := ownWork_eq_ok_iff.mp hok
  unfold Target.difficulty at hdifficulty
  split at hdifficulty
  · cases hdifficulty
  · obtain rfl := Except.ok.inj hdifficulty
    have hone : Target.difficultyOne.toNat < 2 ^ 224 := by decide
    exact Nat.lt_of_le_of_lt (Nat.div_le_self _ _) hone

namespace ChainState

variable {s t : ChainState} {hs : List Header}

/-- The next header must name the last one, and adds its own work. -/
theorem extend_eq (s : ChainState) (h : Header) :
    s.extend h =
      if s.last.any (· ≠ h.prevBlock) then .error .invalidChain
      else h.ownWork.map fun work => ⟨some h.hash, min (s.work + work) maxWork⟩ := by
  have hmap (f : Nat → ChainState) : h.ownWork.map f = h.ownWork >>= fun work => pure (f work) := by
    cases h.ownWork <;> rfl
  rw [hmap, extend, ownWork]
  by_cases hlink : s.last.any (· ≠ h.prevBlock)
  · rw [if_pos hlink, if_pos hlink]
    rfl
  · rw [if_neg hlink, if_neg hlink, bind_assoc]
    simp only [Guards.refuse_bind]

/-! ## Runs of headers -/

/-- Checks headers one after the other. -/
def run (s : ChainState) (hs : List Header) : Except Error ChainState :=
  hs.foldlM extend s

theorem run_append (s : ChainState) (as bs : List Header) :
    s.run (as ++ bs) = s.run as >>= fun t => t.run bs :=
  List.foldlM_append

/-- The state with some work done before. -/
def credit (earlier : Nat) (s : ChainState) : ChainState :=
  ⟨s.last, min (earlier + s.work) maxWork⟩

/-- Work that was done before decides nothing about the next header. -/
theorem extend_credit (earlier : Nat) (s : ChainState) (h : Header) :
    (credit earlier s).extend h = (s.extend h).map (credit earlier) := by
  rw [extend_eq, extend_eq, credit]
  dsimp only
  split
  · rfl
  · cases h.ownWork with
    | error e => rfl
    | ok work =>
      have hwork : min (min (earlier + s.work) maxWork + work) maxWork =
          min (earlier + min (s.work + work) maxWork) maxWork := by omega
      simp only [Except.map, credit, hwork]

/-- Nor does it decide anything about a run: it is added in the end. -/
theorem run_credit (earlier : Nat) (s : ChainState) (hs : List Header) :
    (credit earlier s).run hs = (s.run hs).map (credit earlier) := by
  induction hs generalizing s with
  | nil => rfl
  | cons h hs ih =>
    simp only [run, List.foldlM_cons, extend_credit] at ih ⊢
    cases s.extend h with
    | error e => rfl
    | ok t => exact ih t

/-- What holds after one more header: its digest is kept, and its work is counted. -/
theorem extend_eq_ok {h : Header} (hok : s.extend h = .ok t) :
    t.last = some h.hash ∧ t.work ≤ maxWork ∧ t.work < s.work + 2 ^ 224 := by
  rw [extend_eq] at hok
  split at hok
  · cases hok
  · cases hwork : h.ownWork with
    | error e =>
      rw [hwork] at hok
      cases hok
    | ok work =>
      rw [hwork] at hok
      obtain rfl := Except.ok.inj hok
      have hlt := ownWork_lt hwork
      refine ⟨rfl, Nat.min_le_right _ _, ?_⟩
      show min (s.work + work) maxWork < s.work + 2 ^ 224
      omega

/-- What holds after a run: the digest of its last header is kept, and the work is no more than that
many headers can have. -/
theorem run_eq_ok (hrun : s.run hs = .ok t) :
    t.last = (hs.getLast?.map hash).or s.last ∧ (s.work ≤ maxWork → t.work ≤ maxWork) ∧
      t.work ≤ s.work + hs.length * 2 ^ 224 := by
  induction hs generalizing s with
  | nil =>
    obtain rfl := Except.ok.inj hrun
    exact ⟨rfl, id, Nat.le_add_right _ _⟩
  | cons h hs ih =>
    obtain ⟨m, hextend, hrest⟩ := Guards.bind_eq_ok_iff.mp hrun
    obtain ⟨hlast, hcap, hwork⟩ := extend_eq_ok hextend
    obtain ⟨hlast', hcap', hwork'⟩ := ih hrest
    refine ⟨?_, fun _ => hcap' hcap, ?_⟩
    · rw [hlast', hlast]
      cases hs with
      | nil => rfl
      | cons h' hs => simp [List.getLast?_cons]
    · rw [List.length_cons, Nat.succ_mul]
      omega

/-- A run is one that starts afresh, but for the first link and the work before it. -/
theorem run_cons {h : Header} (hcap : s.work ≤ maxWork) :
    s.run (h :: hs) =
      if s.last.any (· ≠ h.prevBlock) then .error .invalidChain
      else (start.run (h :: hs)).map (credit s.work) := by
  have hstart : credit s.work start = ⟨none, s.work⟩ := by
    simp only [credit, start, Nat.add_zero, Nat.min_eq_left hcap]
  by_cases hlink : s.last.any (· ≠ h.prevBlock)
  · rw [if_pos hlink, run, List.foldlM_cons, extend_eq, if_pos hlink]
    rfl
  · have hextend : s.extend h = (credit s.work start).extend h := by
      rw [hstart, extend_eq, extend_eq, if_neg hlink, if_neg (by simp)]
    rw [if_neg hlink, ← run_credit, run, List.foldlM_cons, hextend]
    rfl

/-- The first of some headers names another digest than that of the last header before them. -/
def BrokenAt (before after : List Header) : Prop :=
  ∃ a ∈ before.getLast?, ∃ b ∈ after.head?, a.hash ≠ b.prevBlock

/-- Two runs are checked as one by checking both and the link between them. -/
theorem work_run_append (before after : List Header) [Decidable (BrokenAt before after)] :
    (start.run (before ++ after)).map work = do
      let earlier ← (start.run before).map work
      if BrokenAt before after then throw .invalidChain
      let later ← (start.run after).map work
      return min (earlier + later) maxWork := by
  rw [run_append]
  cases hbefore : start.run before with
  | error e => rfl
  | ok s =>
    obtain ⟨hlast, hcap, _⟩ := run_eq_ok hbefore
    have hwork : s.work ≤ maxWork := hcap (Nat.zero_le _)
    show (s.run after).map work =
      if BrokenAt before after then (throw .invalidChain : Except Error PUnit) >>= fun _ => _ else _
    cases after with
    | nil =>
      rw [if_neg (by simp [BrokenAt])]
      show Except.ok s.work = Except.ok (min (s.work + 0) maxWork)
      rw [Nat.add_zero, Nat.min_eq_left hwork]
    | cons h hs =>
      have hbroken : s.last.any (· ≠ h.prevBlock) = true ↔ BrokenAt before (h :: hs) := by
        rw [hlast, BrokenAt]
        cases before.getLast? with
        | none => simp [start]
        | some a => simp
      rw [run_cons hwork]
      by_cases hlink : BrokenAt before (h :: hs)
      · rw [if_pos (hbroken.mpr hlink), if_pos hlink]
        rfl
      · rw [if_neg (mt hbroken.mp hlink), if_neg hlink]
        cases start.run (h :: hs) with
        | error e => rfl
        | ok t => rfl

end ChainState

/-! ## Runs of octets -/

theorem maxWork_eq : maxWork = 2 ^ 256 - 1 := by
  decide

/-- Octets that are no whole number of headers are refused unread. -/
theorem chainWork_of_length_mod {bs : Bytes} (hlength : bs.length % 80 ≠ 0) :
    chainWork bs = .error .wrongLengthHeader := by
  rw [chainWork, if_pos hlength]
  rfl

/-- The work in a run is found by checking its headers from the start. -/
theorem chainWork_flatten (raws : List RawHeader) :
    chainWork (raws.map FixedBytes.bytes).flatten =
      (ChainState.start.run (raws.map ofRaw)).map ChainState.work := by
  have hwhole : ¬(raws.map FixedBytes.bytes).flatten.length % 80 ≠ 0 := by
    rw [RawHeader.length_flatten, Nat.mul_mod_left]
    exact fun hne => hne rfl
  have hextend (s : ChainState) (raw : RawHeader) :
      s.extendRaw raw.bytes = s.extend (ofRaw raw) := by
    rw [ChainState.extendRaw, RawHeader.ofBytes_bytes]
    rfl
  rw [chainWork, if_neg hwhole,
    Bytes.chunks_flatten (by decide) RawHeader.length_of_mem_map_bytes, List.foldlM_map]
  simp only [hextend, ChainState.run, List.foldlM_map]
  cases raws.foldlM (fun s raw => s.extend (ofRaw raw)) ChainState.start <;> rfl

/-- The first header of `after` names the digest of the last header of `before`. -/
def Continues (before after : Bytes) : Prop :=
  (after.drop 4).take 32 = (hash256 (before.drop (before.length - 80))).bytes

instance (before after : Bytes) : Decidable (Continues before after) :=
  inferInstanceAs (Decidable (_ = _))

/-- Whether a run continues another is decided by the last header of the one and the first of the
other. -/
theorem continues_append_iff {a b : RawHeader} (before after : Bytes) :
    Continues (before ++ a.bytes) (b.bytes ++ after) ↔ (ofRaw b).prevBlock = (ofRaw a).hash := by
  have hnamed : ((b.bytes ++ after).drop 4).take 32 = (ofRaw b).prevBlock.bytes := by
    have hlength : (b.bytes.drop 4).length = 76 := by rw [List.length_drop, b.length_bytes]
    rw [List.drop_append_of_le_length (by rw [b.length_bytes]; decide),
      List.take_append_of_le_length (by omega)]
    rfl
  have hlast : (before ++ a.bytes).drop ((before ++ a.bytes).length - 80) = a.bytes := by
    rw [List.length_append, a.length_bytes, Nat.add_sub_cancel, List.drop_left]
  rw [Continues, hnamed, hlast, ← RawHeader.hash, ← hash_ofRaw, ← FixedBytes.ext_iff]

theorem continues_bytes_iff {a b : Header} : Continues a.bytes b.bytes ↔ b.prevBlock = a.hash := by
  have hraw := continues_append_iff (a := a.raw) (b := b.raw) [] []
  rwa [ofRaw_raw, ofRaw_raw, List.nil_append, List.append_nil] at hraw

/-- Where two runs meet, the link is one between two headers. -/
theorem brokenAt_iff_not_continues (as bs : List RawHeader) :
    ChainState.BrokenAt (as.map ofRaw) (bs.map ofRaw) ↔
      (as.map FixedBytes.bytes).flatten ≠ [] ∧ (bs.map FixedBytes.bytes).flatten ≠ [] ∧
        ¬Continues (as.map FixedBytes.bytes).flatten (bs.map FixedBytes.bytes).flatten := by
  rcases List.eq_nil_or_concat as with rfl | ⟨as, a, rfl⟩
  · simp [ChainState.BrokenAt]
  cases bs with
  | nil => simp [ChainState.BrokenAt]
  | cons b bs =>
    have hne (raw : RawHeader) : raw.bytes ≠ [] := by
      intro hnil
      have hlength := raw.length_bytes
      rw [hnil] at hlength
      cases hlength
    have hlast : ((as.concat a).map FixedBytes.bytes).flatten =
        (as.map FixedBytes.bytes).flatten ++ a.bytes := by simp
    have hfirst : ((b :: bs).map FixedBytes.bytes).flatten =
        b.bytes ++ (bs.map FixedBytes.bytes).flatten := by simp
    have hbroken : ChainState.BrokenAt ((as.concat a).map ofRaw) ((b :: bs).map ofRaw) ↔
        (ofRaw a).hash ≠ (ofRaw b).prevBlock := by
      simp [ChainState.BrokenAt]
    rw [hlast, hfirst, continues_append_iff, hbroken]
    constructor
    · exact fun hlink => ⟨by simp [hne], by simp [hne], hlink.symm⟩
    · exact fun hlink => Ne.symm hlink.2.2

/-- The work in a run is no more than that many headers can have. -/
theorem chainWork_le {raws : List RawHeader} {work : Nat}
    (hok : chainWork (raws.map FixedBytes.bytes).flatten = .ok work) :
    work ≤ raws.length * 2 ^ 224 := by
  rw [chainWork_flatten] at hok
  cases hrun : ChainState.start.run (raws.map ofRaw) with
  | error e =>
    rw [hrun] at hok
    cases hok
  | ok s =>
    rw [hrun] at hok
    obtain rfl := Except.ok.inj hok
    have hwork := (ChainState.run_eq_ok hrun).2.2
    rwa [List.length_map, ChainState.start, Nat.zero_add] at hwork

/-- A run of headers that is put together from two is refused for what is wrong with the first of
them; else because the second does not continue it; else for what is wrong with the second. Else it
has the work of both, which is capped, but not for less than 2^32 headers. Anything but a whole
number of headers is refused. -/
theorem chainWork_append :
    (∀ bs : Bytes, bs.length % 80 ≠ 0 → chainWork bs = .error .wrongLengthHeader) ∧
    ∀ before after : Bytes, before.length % 80 = 0 → after.length % 80 = 0 →
      (chainWork (before ++ after) = do
        let earlier ← chainWork before
        if before ≠ [] ∧ after ≠ [] ∧ ¬Continues before after then throw .invalidChain
        let later ← chainWork after
        return min (earlier + later) (2 ^ 256 - 1)) ∧
      ((before ++ after).length < 2 ^ 32 * 80 →
        ∀ earlier later, chainWork before = .ok earlier → chainWork after = .ok later →
          min (earlier + later) (2 ^ 256 - 1) = earlier + later) := by
  refine ⟨fun bs => chainWork_of_length_mod, fun before after hbefore hafter => ?_⟩
  obtain ⟨as, rfl⟩ := RawHeader.exists_eq_flatten hbefore
  obtain ⟨bs, rfl⟩ := RawHeader.exists_eq_flatten hafter
  constructor
  · have hjoin : (as.map FixedBytes.bytes).flatten ++ (bs.map FixedBytes.bytes).flatten =
        ((as ++ bs).map FixedBytes.bytes).flatten := by simp
    have hlink := brokenAt_iff_not_continues as bs
    have hdecidable : Decidable (ChainState.BrokenAt (as.map ofRaw) (bs.map ofRaw)) :=
      decidable_of_iff _ hlink.symm
    rw [hjoin, chainWork_flatten, List.map_append, ChainState.work_run_append, chainWork_flatten,
      chainWork_flatten, maxWork_eq]
    simp only [hlink]
  · intro hfew earlier later hearlier hlater
    have hearlierLe := chainWork_le hearlier
    have hlaterLe := chainWork_le hlater
    rw [List.length_append, RawHeader.length_flatten, RawHeader.length_flatten] at hfew
    omega

/-- A header of the main network. -/
def linkedParent : Header where
  version := 0x20000000
  prevBlock := ⟨Bytes.ofNat .little 32
    0x19c410fc0e973601e44e75a62e6476fcc4d9ed8421bd73, Bytes.length_ofNat _ _ _⟩
  merkleRoot := ⟨Bytes.ofNat .little 32
    0xc2c86141dac443ac71c37aadb19dd487be947dbf225f69cfa56da93e12ef9602, Bytes.length_ofNat _ _ _⟩
  time := 0x5b9c3416
  bits := 0x172819a1
  nonce := 0x2b78380d

/-- The header that follows it. -/
def linkedChild : Header where
  version := 0x20000000
  prevBlock := ⟨Bytes.ofNat .little 32
    0x24cc6777e93673f53853240d34f1bb7fb1d63983e470fe, Bytes.length_ofNat _ _ _⟩
  merkleRoot := ⟨Bytes.ofNat .little 32
    0x25686efea27e72f739db9da7789132f824e0a83e4cdbe5b5e9c6275c863bf55a, Bytes.length_ofNat _ _ _⟩
  time := 0x5b9c34d1
  bits := 0x172819a1
  nonce := 0x5951d9e2

/-- The target of both headers. -/
def linkedTarget : Target :=
  ⟨0x2819a1#256 <<< 160⟩

/-- A header whose digest meets the target is a chain of its own. -/
theorem chainWork_of_linkedTarget {h : Header} (htarget : h.target = .ok linkedTarget)
    (hmet : linkedTarget.isMetBy h.hash = true) : chainWork h.bytes = .ok 7019199231177 := by
  have hwork : h.ownWork = .ok 7019199231177 :=
    ownWork_eq_ok_iff.mpr ⟨linkedTarget, htarget, hmet, rfl⟩
  have hbytes : h.bytes = ([h.raw].map FixedBytes.bytes).flatten := by simp [raw]
  have hcap : min (0 + 7019199231177) maxWork = 7019199231177 := by
    rw [maxWork_eq]
    decide
  rw [hbytes, chainWork_flatten, List.map_singleton, ofRaw_raw, ChainState.run, List.foldlM_cons,
    ChainState.extend_eq, hwork, if_neg (by simp [ChainState.start])]
  exact congrArg Except.ok hcap

/-- Two headers of the main network have the work of both in their order, and are no chain the other
way round; a single octet is no header. -/
theorem chainWork_append_linked :
    linkedParent.bytes.length % 80 = 0 ∧ linkedChild.bytes.length % 80 = 0 ∧
      chainWork linkedParent.bytes = .ok 7019199231177 ∧
      chainWork linkedChild.bytes = .ok 7019199231177 ∧
      chainWork (linkedParent.bytes ++ linkedChild.bytes) = .ok 14038398462354 ∧
      chainWork (linkedChild.bytes ++ linkedParent.bytes) = .error .invalidChain ∧
      chainWork [0x00] = .error .wrongLengthHeader := by
  have hparentLength : linkedParent.bytes.length % 80 = 0 := by rw [length_bytes]
  have hchildLength : linkedChild.bytes.length % 80 = 0 := by rw [length_bytes]
  have hparent : chainWork linkedParent.bytes = .ok 7019199231177 :=
    chainWork_of_linkedTarget rfl (by decide +kernel)
  have hchild : chainWork linkedChild.bytes = .ok 7019199231177 :=
    chainWork_of_linkedTarget rfl (by decide +kernel)
  have hlink : Continues linkedParent.bytes linkedChild.bytes :=
    continues_bytes_iff.mpr (by decide +kernel)
  have hbroken : linkedChild.bytes ≠ [] ∧ linkedParent.bytes ≠ [] ∧
      ¬Continues linkedChild.bytes linkedParent.bytes :=
    ⟨by decide, by decide, mt continues_bytes_iff.mp (by decide +kernel)⟩
  have hfew : (linkedParent.bytes ++ linkedChild.bytes).length < 2 ^ 32 * 80 := by
    rw [List.length_append, length_bytes, length_bytes]
    decide
  obtain ⟨hforth, hexact⟩ := chainWork_append.2 _ _ hparentLength hchildLength
  obtain ⟨hback, _⟩ := chainWork_append.2 _ _ hchildLength hparentLength
  refine ⟨hparentLength, hchildLength, hparent, hchild, ?_, ?_, chainWork_append.1 _ (by decide)⟩
  · have hsum := hexact hfew _ _ hparent hchild
    rw [hforth, hparent, hchild]
    simp only [hlink, not_true_eq_false, and_false, if_false]
    exact congrArg Except.ok hsum
  · rw [hback, hchild]
    simp only [if_pos hbroken]
    rfl

end LightClient.Header
