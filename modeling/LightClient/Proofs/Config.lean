import LightClient.Config.Text
import LightClient.Proofs.Json.Record
import LightClient.Proofs.Target.Order

/-!
# Configurations survive their JSON, if their parameters are valid

What is written for a configuration is read as the same configuration before its parameters are
looked at: the network by its name, the parameters and the check of work because they are there. So
a configuration is read back from its text if its parameters are valid, and otherwise refused as
they are. Whatever text a configuration was read from, and whatever the text left out, its
parameters are valid: they have a next target for every target and every two timestamps.
-/

namespace LightClient

/-- A network is read by its name. -/
theorem Network.ofJson?_name (network : Network) :
    ofJson? (Json.Document.text network.name).value = some network := by
  cases network <;> rfl

namespace ChainParams

variable {p : ChainParams}

theorem allFields?_document (p : ChainParams) :
    p.document.value.allFields? .lenient fieldNames = some [
      (Json.Document.natural p.powLimitBits.toNat).value,
      (Json.Document.natural p.retargetInterval.toNat).value,
      (Json.Document.natural p.targetSpacing.toNat).value,
      (Json.Document.flag p.noRetargeting).value] := by
  have hnodup : fieldNames.Nodup := by decide
  exact Json.allFields?_record .lenient hnodup

theorem ofJson?_document (p : ChainParams) : ofJson? p.document.value = some p := by
  rw [ofJson?, p.allFields?_document]
  simp only [Option.bind_eq_bind, Option.bind_some, Json.uint32?_value, Json.uint64?_value,
    Json.bool?_value, Option.pure_def]

end ChainParams

/-! ## Parameters -/

namespace Target

variable {p : ChainParams}

/-- Under valid parameters there is a next target for every target and every two timestamps: the
same one, or the adjusted one cut down to the limit. -/
theorem exists_retarget_of_valid (hvalid : p.validate = .ok ())
    (hword : p.retargetInterval.toNat * p.targetSpacing.toNat < 2 ^ 64) :
    ∃ limit, p.powLimit = .ok limit ∧ ∀ (previous : Target) (first second : UInt32),
      ∃ next, retarget previous first second p = .ok next ∧
        (next.toNat : Int) =
          if p.noRetargeting then (previous.toNat : Int)
          else
            min (adjusted previous (p.retargetInterval.toNat * p.targetSpacing.toNat) first second)
              limit.toNat := by
  obtain ⟨limit, hlimit⟩ := ChainParams.exists_powLimit_eq_ok hvalid
  refine ⟨limit, hlimit, fun previous first second => ?_⟩
  cases hadjusts : p.noRetargeting with
  | true =>
    have hchecked := retargetChecked_of_noRetargeting previous first second hvalid hadjusts
    exact ⟨previous, retarget_of_retargetChecked_eq_ok previous first second hchecked, rfl⟩
  | false =>
    obtain ⟨next, hnext, hvalue⟩ :=
      exists_retarget_eq_ok hvalid hadjusts hlimit previous first second
    rw [ChainParams.toNat_targetTimespan hword] at hvalue
    exact ⟨next, hnext, hvalue⟩

end Target

namespace Config

variable {c : Config} {text : String}

theorem fields?_document (c : Config) :
    c.document.value.fields? .exact fieldNames = some [
      some (Json.Document.text c.network.name).value,
      some c.params.document.value,
      some (Json.Document.flag c.checkHeaderWork).value] := by
  have hnodup : fieldNames.Nodup := by decide
  exact Json.fields?_record .exact hnodup

/-- The fields of a configuration are read as what they were written for. -/
theorem ofJson?_document (c : Config) : ofJson? c.document.value = some c := by
  rw [ofJson?, c.fields?_document]
  simp only [Option.bind_eq_bind, Option.bind_some, Network.ofJson?_name, Json.optional?_value,
    c.params.ofJson?_document, Json.bool?_value, Option.map_some, Option.getD_some, Option.pure_def]

/-- What is left to do behind reading the fields is to look at the parameters. -/
theorem ofText_toText_eq (c : Config) :
    ofText c.toText = c.params.validate >>= fun _ => pure c := by
  rw [ofText, toText, Json.read_render c.ofJson?_document]
  rfl

/-- Only valid parameters are read. -/
theorem validate_of_ofText_eq_ok (hread : ofText text = .ok c) : c.params.validate = .ok () := by
  obtain ⟨config, -, hread⟩ := Guards.bind_eq_ok_iff.mp hread
  obtain ⟨_, hvalid, hread⟩ := Guards.bind_eq_ok_iff.mp hread
  obtain rfl := Except.ok.inj hread
  exact hvalid

/-- A configuration is read back from its own text if its parameters are valid; otherwise it is
refused for what is wrong with them. A configuration that was read from any text has parameters
under which a period takes time, four times that time is a signed number of 64 bits, and every
target has a next target, whatever the timestamps are. -/
theorem ofText_validated :
    (∀ c : Config,
      c.params.validate = .ok () ∧ ofText c.toText = .ok c ∨
        ∃ fault, c.params.validate = .error (.invalidConfig fault) ∧
          ofText c.toText = .error (.invalidConfig fault)) ∧
    ∀ (text : String) (c : Config) (timespan : Nat), ofText text = .ok c →
      c.params.retargetInterval.toNat * c.params.targetSpacing.toNat = timespan →
      timespan < 2 ^ 64 →
      0 < timespan ∧ 4 * timespan < 2 ^ 63 ∧
        ∃ limit, c.params.powLimit = .ok limit ∧ ∀ (previous : Target) (first second : UInt32),
          ∃ next, previous.retarget first second c.params = .ok next ∧
            (next.toNat : Int) =
              if c.params.noRetargeting then (previous.toNat : Int)
              else min (previous.adjusted timespan first second) limit.toNat := by
  constructor
  · intro c
    rw [ofText_toText_eq]
    cases hvalidate : c.params.validate with
    | ok u => exact .inl ⟨rfl, rfl⟩
    | error e =>
      obtain ⟨fault, rfl⟩ := ChainParams.exists_fault_of_validate_eq_error hvalidate
      exact .inr ⟨fault, rfl, rfl⟩
  · rintro text c timespan hread rfl hword
    have hvalid := validate_of_ofText_eq_ok hread
    have htimespan := ChainParams.toNat_targetTimespan hword
    have hpos := ChainParams.targetTimespan_pos hvalid hword
    obtain ⟨-, -, hshort, -⟩ := ChainParams.validate_eq_ok_iff.mp hvalid
    have hfourfold := Target.four_mul_toNat_lt hshort
    rw [htimespan] at hpos hfourfold
    exact ⟨hpos, hfourfold, Target.exists_retarget_of_valid hvalid hword⟩

/-- A text that gives the parameters in order, without their names, and leaves all else out. -/
def dailyText : String :=
  "\x7b\"params\": [486604799, 144, 600, false]\x7d"

/-- The configuration of the main network with a period of a day. -/
def daily : Config where
  network := .mainnet
  params := ⟨0x1d00ffff, 144, 600, false⟩
  checkHeaderWork := true

/-- With a period of a day, a day's blocks found in half of it halve the target. -/
theorem ofText_validated_daily :
    ofText dailyText = .ok daily ∧
      daily.params.retargetInterval.toNat * daily.params.targetSpacing.toNat = 86400 ∧
      ∃ next, Target.difficultyOne.retarget 0 43200 daily.params = .ok next ∧
        (next.toNat : Int) = 0xffff * 2 ^ 207 := by
  have hread : ofText dailyText = .ok daily := by decide +kernel
  have hperiod : daily.params.retargetInterval.toNat * daily.params.targetSpacing.toNat = 86400 :=
    rfl
  obtain ⟨-, -, limit, hlimit, hretargets⟩ :=
    ofText_validated.2 dailyText daily 86400 hread hperiod (by decide)
  obtain rfl : Target.difficultyOne = limit := Except.ok.inj hlimit
  obtain ⟨next, hnext, hvalue⟩ := hretargets Target.difficultyOne 0 43200
  have hadjusted : Target.difficultyOne.adjusted 86400 0 43200 = 0xffff * 2 ^ 207 := by decide
  have hle : (0xffff * 2 ^ 207 : Int) ≤ Target.difficultyOne.toNat := by decide
  refine ⟨hread, hperiod, next, hnext, ?_⟩
  rw [hvalue, hadjusted, Int.min_eq_left hle]
  rfl

end Config

end LightClient
