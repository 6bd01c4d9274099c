import LightClient.Proofs.Json.Token

/-!
# Written documents are read back

A document is cut into its tokens: a comma in front of every field of a record but the first, and in
each field the name, a colon and the tokens of the value. The tokens build the value that the
document stands for, in whatever array or object they stand. So the text of a document spells one
value, and the document shows which.
-/

namespace LightClient.Json

/-! ## What a document stands for -/

mutual

/-- The tokens of a document. -/
def Document.tokens : Document → List Token
  | .text value => [.string (some value)]
  | .natural value => [.natural value]
  | .flag value => [.bool value]
  | .record fields =>
    .beginObject :: List.intercalate [.comma] (fieldTokens fields) ++ [.endObject]

/-- The tokens of the fields of a record, one list for each. -/
def fieldTokens : List (String × Document) → List (List Token)
  | [] => []
  | (name, value) :: fields =>
    (.string (some name) :: .colon :: value.tokens) :: fieldTokens fields

end

mutual

/-- The value of a document. -/
def Document.value : Document → Json
  | .text value => .string (some value)
  | .natural value => .natural value
  | .flag value => .bool value
  | .record fields => .object (fieldMembers fields)

/-- The fields of a record as members of an object. -/
def fieldMembers : List (String × Document) → Members
  | [] => []
  | (name, value) :: fields => (some name, value.value) :: fieldMembers fields

end

/-! ## Cutting a document -/

/-- What stands behind the first piece has the separator in front of each piece. -/
theorem intercalate_cons {α : Type} (sep first : List α) (rest : List (List α)) :
    List.intercalate sep (first :: rest) = first ++ rest.flatMap (sep ++ ·) := by
  induction rest generalizing first with
  | nil => simp
  | cons second rest ih =>
    rw [List.intercalate_cons_cons, ih second, List.flatMap_cons, List.append_assoc,
      List.append_assoc]

theorem isBlank_of_mem_newline {level : Nat} {c : Char} (hc : c ∈ newline level) :
    isBlank c = true := by
  rcases List.mem_cons.mp hc with rfl | hc
  · decide
  · obtain ⟨_, rfl⟩ := List.mem_replicate.mp hc
    decide

/-- A field is cut into its name, a colon and the tokens of its value. -/
theorem lexes_fieldLine (level : Nat) (name : String) {value : List Char} {ts : List Token}
    (hvalue : Lexes value ts) :
    Lexes (fieldLine level name value) (.string (some name) :: .colon :: ts) := by
  have hblank : Lexes ([' '] ++ value) ts :=
    hvalue.blanks_append (List.forall_mem_singleton.mpr rfl)
  have hcolon : Lexes (':' :: ' ' :: value) (.colon :: ts) := hblank.cons_mark rfl
  have hnamed : Lexes (quote name ++ ':' :: ' ' :: value) (.string (some name) :: .colon :: ts) :=
    (lexes_quote name).append hcolon (endsWord_cons (by decide) _)
  have hline : Lexes (newline level ++ (quote name ++ ':' :: ' ' :: value))
      (.string (some name) :: .colon :: ts) :=
    hnamed.blanks_append fun _ hc => isBlank_of_mem_newline hc
  simpa [fieldLine] using hline

mutual

/-- A document is cut into its tokens, at whatever level it is written. -/
theorem Document.lexes (level : Nat) : ∀ d : Document, Lexes (d.chars level) d.tokens
  | .text value => lexes_quote value
  | .natural value => lexes_decimal value
  | .flag true => by
    have htrue : Lexes "true".toList [.bool true] :=
      lexes_word (by decide) (List.all_eq_true.mp rfl) (by decide)
    exact htrue
  | .flag false => by
    have hfalse : Lexes "false".toList [.bool false] :=
      lexes_word (by decide) (List.all_eq_true.mp rfl) (by decide)
    exact hfalse
  | .record [] => (lexes_nil.cons_mark (c := '}') rfl).cons_mark (c := '{') rfl
  | .record ((name, value) :: fields) => by
    have hclose : Lexes ['}'] [.endObject] := lexes_nil.cons_mark rfl
    have hlast : Lexes (newline level ++ ['}']) [.endObject] :=
      hclose.blanks_append fun _ hc => isBlank_of_mem_newline hc
    have hrest := (lexes_flatMap_fieldLines (level + 1) fields).1.append hlast
      (endsWord_cons (by decide) _)
    have hrestEnds := (lexes_flatMap_fieldLines (level + 1) fields).2.append
      (endsWord_cons (c := '\n') (by decide) (List.replicate (2 * level) ' ' ++ ['}']))
    have hfirst := lexes_fieldLine (level + 1) name (Document.lexes (level + 1) value)
    have hrecord := (hfirst.append hrest hrestEnds).cons_mark (c := '{') (t := .beginObject) rfl
    simpa [Document.chars, Document.tokens, enclose, fieldLines, fieldTokens, intercalate_cons]
      using hrecord

/-- The fields behind the first are cut with a comma in front of each. -/
theorem lexes_flatMap_fieldLines (level : Nat) : ∀ fields : List (String × Document),
    Lexes ((fieldLines level fields).flatMap ([','] ++ ·))
        ((fieldTokens fields).flatMap ([.comma] ++ ·)) ∧
      EndsWord ((fieldLines level fields).flatMap ([','] ++ ·))
  | [] => ⟨lexes_nil, by simp [EndsWord, fieldLines]⟩
  | (name, value) :: fields => by
    obtain ⟨hrest, hrestEnds⟩ := lexes_flatMap_fieldLines level fields
    have hfirst := lexes_fieldLine level name (Document.lexes level value)
    have hfields := (hfirst.append hrest hrestEnds).cons_mark (c := ',') (t := .comma) rfl
    exact ⟨by simpa [fieldLines, fieldTokens] using hfields, endsWord_cons (by decide) _⟩

end

theorem Document.tokens_render (d : Document) : Json.tokens d.render = some d.tokens := by
  apply Lexes.tokens_eq
  rw [Document.render, String.toList_ofList]
  exact d.lexes 0

/-! ## Building the value -/

theorem foldlM_step_append {first rest : List Token} {s t : State}
    (hfirst : first.foldlM State.step s = some t) :
    (first ++ rest).foldlM State.step s = rest.foldlM State.step t := by
  rw [List.foldlM_append, hfirst]
  rfl

mutual

/-- The tokens of a document complete its value where it stands. -/
theorem Document.foldlM_step (outer : List Frame) : ∀ d : Document,
    d.tokens.foldlM State.step (.value outer) = some (complete d.value outer)
  | .text value => rfl
  | .natural value => rfl
  | .flag value => rfl
  | .record [] => rfl
  | .record ((name, value) :: fields) => by
    have hvalue := Document.foldlM_step (.object [] (some name) :: outer) value
    have hfields := foldlM_step_fields [(some name, value.value)] outer fields
    have htokens : (Document.record ((name, value) :: fields)).tokens =
        [.beginObject, .string (some name), .colon] ++
          (value.tokens ++ ((fieldTokens fields).flatMap ([.comma] ++ ·) ++ [.endObject])) := by
      simp [Document.tokens, fieldTokens, intercalate_cons]
    have hopen : [Token.beginObject, .string (some name), .colon].foldlM State.step (.value outer) =
        some (.value (.object [] (some name) :: outer)) := rfl
    rw [htokens, foldlM_step_append hopen, foldlM_step_append hvalue, complete,
      foldlM_step_append hfields]
    simp [Document.value, fieldMembers, State.step]

/-- The tokens of the fields behind the first add their members to the object. -/
theorem foldlM_step_fields (rev : Members) (outer : List Frame) :
    ∀ fields : List (String × Document),
      ((fieldTokens fields).flatMap ([.comma] ++ ·)).foldlM State.step (.afterMember rev outer) =
        some (.afterMember ((fieldMembers fields).reverse ++ rev) outer)
  | [] => rfl
  | (name, value) :: fields => by
    have hvalue := Document.foldlM_step (.object rev (some name) :: outer) value
    have hfields := foldlM_step_fields ((some name, value.value) :: rev) outer fields
    have htokens : (fieldTokens ((name, value) :: fields)).flatMap ([.comma] ++ ·) =
        [.comma, .string (some name), .colon] ++
          (value.tokens ++ (fieldTokens fields).flatMap ([.comma] ++ ·)) := by
      simp [fieldTokens]
    have hopen : [Token.comma, .string (some name), .colon].foldlM State.step
        (.afterMember rev outer) = some (.value (.object rev (some name) :: outer)) := rfl
    rw [htokens, foldlM_step_append hopen, foldlM_step_append hvalue, complete, hfields]
    simp [fieldMembers]

end

/-- The text of a document spells the document's value. -/
theorem Document.parse?_render (d : Document) : parse? d.render = some d.value := by
  have hbuilt := Document.foldlM_step [] d
  simp [parse?, ofTokens?, d.tokens_render, hbuilt, complete]

end LightClient.Json
