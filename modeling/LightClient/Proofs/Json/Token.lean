import LightClient.Json.Document

/-!
# Written characters and the tokens that are cut from them

Blanks and punctuation are cut wherever they stand, and a string ends at its closing quote. A word
ends where the next character cannot continue it, so it is cut as it was written only in front of
such a character or at the end. Strings are written with escapes, each of which is read as the
character that it stands for, so every text is read back, whatever its characters are.
-/

namespace LightClient.Json

/-- No word goes on at the front of these characters. -/
def EndsWord (cs : List Char) : Prop :=
  ∀ c ∈ cs.head?, isWordChar c = false

theorem endsWord_cons {c : Char} (hc : isWordChar c = false) (cs : List Char) :
    EndsWord (c :: cs) := by
  intro d hd
  obtain rfl : c = d := by simpa using hd
  exact hc

theorem EndsWord.append {left right : List Char} (hleft : EndsWord left)
    (hright : EndsWord right) : EndsWord (left ++ right) := by
  cases left with
  | nil => exact hright
  | cons c cs => exact hleft

/-- The characters are cut into the tokens, in front of anything that continues no word. -/
def Lexes (cs : List Char) (ts : List Token) : Prop :=
  ∀ rest, EndsWord rest →
    tokensFrom .between (cs ++ rest) = (tokensFrom .between rest).map (ts ++ ·)

theorem Lexes.append {left right : List Char} {ts us : List Token} (hleft : Lexes left ts)
    (hright : Lexes right us) (hends : EndsWord right) : Lexes (left ++ right) (ts ++ us) := by
  intro rest hrest
  rw [List.append_assoc, hleft _ (hends.append hrest), hright rest hrest, Option.map_map]
  congr 1
  funext vs
  exact (List.append_assoc ts us vs).symm

/-- Characters that fill a text are cut into its tokens. -/
theorem Lexes.tokens_eq {text : String} {ts : List Token} (hlexes : Lexes text.toList ts) :
    tokens text = some ts := by
  have hwhole := hlexes [] (by simp [EndsWord])
  simpa [tokens, tokensFrom] using hwhole

/-! ## One character at a time -/

theorem tokensFrom_cons {mode next : Mode} {c : Char} {ts : List Token}
    (hstep : mode.step c = some (next, ts)) (cs : List Char) :
    tokensFrom mode (c :: cs) = (tokensFrom next cs).map (ts ++ ·) := by
  rw [tokensFrom, hstep]
  cases htail : tokensFrom next cs <;> simp [htail]

/-- A character that completes no token only changes where cutting stands. -/
theorem tokensFrom_cons_silent {mode next : Mode} {c : Char} (hstep : mode.step c = some (next, []))
    (cs : List Char) : tokensFrom mode (c :: cs) = tokensFrom next cs := by
  rw [tokensFrom_cons hstep]
  simp

theorem lexes_nil : Lexes [] [] := by
  intro rest _
  simp

/-- A punctuation mark is cut in front of anything. -/
theorem Lexes.cons_mark {c : Char} {t : Token} {cs : List Char} {ts : List Token}
    (hstart : startToken c = some (.between, [t])) (hlexes : Lexes cs ts) :
    Lexes (c :: cs) (t :: ts) := by
  intro rest hrest
  have hstep : Mode.between.step c = some (.between, [t]) := hstart
  rw [List.cons_append, tokensFrom_cons hstep, hlexes rest hrest, Option.map_map]
  rfl

/-- Blanks are no tokens. -/
theorem Lexes.blanks_append {blanks cs : List Char} {ts : List Token}
    (hblanks : ∀ c ∈ blanks, isBlank c = true) (hlexes : Lexes cs ts) :
    Lexes (blanks ++ cs) ts := by
  induction blanks with
  | nil => exact hlexes
  | cons c blanks ih =>
    obtain ⟨hc, hblanks⟩ := List.forall_mem_cons.mp hblanks
    intro rest hrest
    have hstep : Mode.between.step c = some (.between, []) := by
      simp [Mode.step, startToken, hc]
    rw [List.cons_append, List.cons_append, tokensFrom_cons_silent hstep, ih hblanks rest hrest]

/-! ## Words -/

theorem tokensFrom_word_append {cs : List Char} (hword : ∀ c ∈ cs, isWordChar c = true)
    (rev rest : List Char) :
    tokensFrom (.word rev) (cs ++ rest) = tokensFrom (.word (cs.reverse ++ rev)) rest := by
  induction cs generalizing rev with
  | nil => rfl
  | cons c cs ih =>
    obtain ⟨hc, hcs⟩ := List.forall_mem_cons.mp hword
    have hstep : (Mode.word rev).step c = some (.word (c :: rev), []) := by
      simp [Mode.step, hc]
    rw [List.cons_append, tokensFrom_cons_silent hstep, ih hcs]
    simp

/-- A word ends in front of a character that cannot continue it. -/
theorem tokensFrom_word_of_endsWord {rev rest : List Char} {t : Token}
    (htoken : wordToken? rev.reverse = some t) (hrest : EndsWord rest) :
    tokensFrom (.word rev) rest = (tokensFrom .between rest).map (t :: ·) := by
  cases rest with
  | nil => simp [tokensFrom, htoken]
  | cons c cs =>
    have hc : isWordChar c = false := hrest c rfl
    cases hstart : startToken c with
    | none => simp [tokensFrom, Mode.step, hc, htoken, hstart]
    | some next =>
      obtain ⟨mode, ts⟩ := next
      have hword : (Mode.word rev).step c = some (mode, t :: ts) := by
        simp [Mode.step, hc, htoken, hstart]
      have hbetween : Mode.between.step c = some (mode, ts) := hstart
      rw [tokensFrom_cons hword, tokensFrom_cons hbetween, Option.map_map]
      rfl

/-- A character of a word is neither a blank nor a quote. -/
theorem startToken_of_isWordChar {c : Char} (hc : isWordChar c = true) :
    startToken c = some (.word [c], []) := by
  have hblank : isBlank c = false := by
    rw [← Bool.not_eq_true]
    intro hblank
    simp only [isBlank, Bool.or_eq_true, decide_eq_true_eq] at hblank
    obtain ((rfl | rfl) | rfl) | rfl := hblank <;> exact absurd hc (by decide)
  have hquote : c ≠ '"' := by
    rintro rfl
    exact absurd hc (by decide)
  simp [startToken, hblank, hquote, hc]

/-- A word is cut as the token that it spells. -/
theorem lexes_word {cs : List Char} {t : Token} (hne : cs ≠ [])
    (hword : ∀ c ∈ cs, isWordChar c = true) (htoken : wordToken? cs = some t) : Lexes cs [t] := by
  intro rest hrest
  cases cs with
  | nil => exact absurd rfl hne
  | cons c cs =>
    obtain ⟨hc, hcs⟩ := List.forall_mem_cons.mp hword
    have hstep : Mode.between.step c = some (.word [c], []) := startToken_of_isWordChar hc
    rw [List.cons_append, tokensFrom_cons_silent hstep, tokensFrom_word_append hcs,
      tokensFrom_word_of_endsWord (t := t) (by simpa using htoken) hrest]
    rfl

/-! ### Numbers -/

theorem isDigit_of_mem_decimal {n : Nat} {c : Char} (hc : c ∈ decimal n) : isDigit c = true :=
  Nat.isDigit_of_mem_toDigits (by decide) (by decide) hc

theorem decimal_ne_nil (n : Nat) : decimal n ≠ [] :=
  Nat.toDigits_ne_nil

/-- No zero leads, except in the number zero. -/
theorem eq_zero_of_head?_decimal {n : Nat} (hhead : (decimal n).head? = some '0') : n = 0 := by
  induction n using Nat.strongRecOn with
  | ind n ih =>
    rw [decimal, Nat.toDigits_eq_if (by decide)] at hhead
    split at hhead
    next hsmall => simpa using hhead
    next hlarge =>
      obtain ⟨d, ds, hdigits⟩ := List.exists_cons_of_ne_nil (decimal_ne_nil (n / 10))
      have hfirst : (decimal (n / 10)).head? = some '0' := by
        rw [hdigits]
        rw [decimal] at hdigits
        rwa [hdigits, List.cons_append, List.head?_cons] at hhead
      have hzero := ih (n / 10) (by omega) hfirst
      omega

theorem areNatural_decimal (n : Nat) : areNatural (decimal n) = true := by
  have hdigits : areDigits (decimal n) = true := by
    simp only [areDigits, Bool.and_eq_true, Bool.not_eq_true', List.isEmpty_eq_false_iff,
      List.all_eq_true]
    exact ⟨decimal_ne_nil n, fun c hc => isDigit_of_mem_decimal hc⟩
  by_cases hhead : (decimal n).head? = some '0'
  · rw [eq_zero_of_head?_decimal hhead]
    rfl
  · simp [areNatural, hdigits, hhead]

/-- Digits start none of the names that are tokens. -/
theorem decimal_ne_of_head? {n : Nat} {c : Char} {cs : List Char} (hc : isDigit c = false) :
    decimal n ≠ c :: cs := by
  intro heq
  have hdigit : isDigit c = true := isDigit_of_mem_decimal (n := n) (by simp [heq])
  rw [hc] at hdigit
  cases hdigit

theorem digitsValue_decimal (n : Nat) : digitsValue (decimal n) = n :=
  Nat.ofDigitChars_ten_toDigits

theorem wordToken?_decimal (n : Nat) : wordToken? (decimal n) = some (.natural n) := by
  have hnull : decimal n ≠ "null".toList := decimal_ne_of_head? (by decide)
  have htrue : decimal n ≠ "true".toList := decimal_ne_of_head? (by decide)
  have hfalse : decimal n ≠ "false".toList := decimal_ne_of_head? (by decide)
  rw [wordToken?, if_neg hnull, if_neg htrue, if_neg hfalse, if_pos (areNatural_decimal n),
    digitsValue_decimal]

theorem lexes_decimal (n : Nat) : Lexes (decimal n) [.natural n] := by
  apply lexes_word (decimal_ne_nil n) _ (wordToken?_decimal n)
  intro c hc
  simp [isWordChar, isDigit_of_mem_decimal hc]

/-! ## Strings -/

/-- A piece of a string stands for a character: by itself, or by the number of a control
character. -/
def Piece.StandsFor : Piece → Char → Prop
  | .char d, c => d = c
  | .unit code, c => code = c.toNat ∧ code < 0x20

/-- A control character belongs to no pair, so pieces are joined one by one. -/
theorem joinPieces_cons {p : Piece} {c : Char} (hp : p.StandsFor c) (ps : List Piece) :
    joinPieces (p :: ps) = (joinPieces ps).map (c :: ·) := by
  cases p with
  | char d =>
    obtain rfl : d = c := hp
    rw [joinPieces]
  | unit code =>
    obtain ⟨rfl, hcontrol⟩ : code = c.toNat ∧ code < 0x20 := hp
    have hhigh : isHighUnit c.toNat = false := by
      simp [isHighUnit]
      omega
    have hlow : isLowUnit c.toNat = false := by
      simp [isLowUnit]
      omega
    rcases ps with _ | ⟨_ | low, ps⟩ <;>
      simp [joinPieces, hhigh, hlow, Char.ofNat_toNat]

theorem hexDigit?_digit {value : Nat} (hvalue : value < 16) :
    hexDigit? (Hex.digit value) = some value := by
  have hdigits : ∀ v < 16, hexDigit? (Hex.digit v) = some v := by decide
  exact hdigits value hvalue

/-- Behind a backslash stands one letter, by which a character is named. -/
theorem tokensFrom_escaped {letter c : Char} (hletter : letter ≠ 'u')
    (hescaped : escaped? letter = some c) (rev : List Piece) (rest : List Char) :
    tokensFrom (.string rev) ('\\' :: letter :: rest) =
      tokensFrom (.string (.char c :: rev)) rest := by
  have hbackslash : (Mode.string rev).step '\\' = some (.escape rev, []) := by
    simp [Mode.step]
  have hstep : (Mode.escape rev).step letter = some (.string (.char c :: rev), []) := by
    simp [Mode.step, hletter, hescaped]
  rw [tokensFrom_cons_silent hbackslash, tokensFrom_cons_silent hstep]

/-- A control character is written by its number. -/
theorem tokensFrom_unit {n : Nat} (hn : n < 0x20) (rev : List Piece) (rest : List Char) :
    tokensFrom (.string rev)
        ('\\' :: 'u' :: '0' :: '0' :: Hex.digit (n / 16) :: Hex.digit (n % 16) :: rest) =
      tokensFrom (.string (.unit n :: rev)) rest := by
  have hbackslash : (Mode.string rev).step '\\' = some (.escape rev, []) := by
    simp [Mode.step]
  have hletter : (Mode.escape rev).step 'u' = some (.unit rev 0 4, []) := by
    simp [Mode.step]
  have hdigit (code missing value : Nat) (hmissing : 1 < missing) (hvalue : value < 16) :
      (Mode.unit rev code missing).step (Hex.digit value) =
        some (.unit rev (16 * code + value) (missing - 1), []) := by
    simp [Mode.step, hexDigit?_digit hvalue, Nat.not_le.mpr hmissing]
  have hlast : (Mode.unit rev (n / 16) 1).step (Hex.digit (n % 16)) =
      some (.string (.unit n :: rev), []) := by
    simp [Mode.step, hexDigit?_digit (Nat.mod_lt n (by decide : 0 < 16)), Nat.div_add_mod]
  have hfirst : (Mode.unit rev 0 4).step '0' = some (.unit rev 0 3, []) :=
    hdigit 0 4 0 (by decide) (by decide)
  have hsecond : (Mode.unit rev 0 3).step '0' = some (.unit rev 0 2, []) :=
    hdigit 0 3 0 (by decide) (by decide)
  have hthird : (Mode.unit rev 0 2).step (Hex.digit (n / 16)) =
      some (.unit rev (n / 16) 1, []) := by
    have hstep := hdigit 0 2 (n / 16) (by decide) (by omega)
    rwa [Nat.mul_zero, Nat.zero_add] at hstep
  rw [tokensFrom_cons_silent hbackslash, tokensFrom_cons_silent hletter,
    tokensFrom_cons_silent hfirst, tokensFrom_cons_silent hsecond, tokensFrom_cons_silent hthird,
    tokensFrom_cons_silent hlast]

/-- A character in a string is written by a letter, by its number, or as it is. -/
theorem escape_cases (c : Char) :
    (∃ letter, letter ≠ 'u' ∧ escaped? letter = some c ∧ escape c = ['\\', letter]) ∨
      (c.toNat < 0x20 ∧ escape c =
        ['\\', 'u', '0', '0', Hex.digit (c.toNat / 16), Hex.digit (c.toNat % 16)]) ∨
      (c ≠ '"' ∧ c ≠ '\\' ∧ 0x20 ≤ c.toNat ∧ escape c = [c]) := by
  by_cases hnamed : c ∈ ['"', '\\', '\x08', '\x0c', '\n', '\r', '\t']
  · left
    simp only [List.mem_cons, List.not_mem_nil, or_false] at hnamed
    rcases hnamed with rfl | rfl | rfl | rfl | rfl | rfl | rfl
    · exact ⟨'"', by decide, rfl, rfl⟩
    · exact ⟨'\\', by decide, rfl, rfl⟩
    · exact ⟨'b', by decide, rfl, rfl⟩
    · exact ⟨'f', by decide, rfl, rfl⟩
    · exact ⟨'n', by decide, rfl, rfl⟩
    · exact ⟨'r', by decide, rfl, rfl⟩
    · exact ⟨'t', by decide, rfl, rfl⟩
  · right
    simp only [List.mem_cons, List.not_mem_nil, or_false, not_or] at hnamed
    obtain ⟨hquote, hbackslash, hback, hfeed, hline, hreturn, htab⟩ := hnamed
    unfold escape
    rw [if_neg hquote, if_neg hbackslash, if_neg hback, if_neg hfeed, if_neg hline, if_neg hreturn,
      if_neg htab]
    by_cases hcontrol : c.toNat < 0x20
    · exact .inl ⟨hcontrol, if_pos hcontrol⟩
    · exact .inr ⟨hquote, hbackslash, Nat.not_lt.mp hcontrol, if_neg hcontrol⟩

/-- What is written for a character in a string is read as a piece that stands for it. -/
theorem exists_standsFor_escape (c : Char) :
    ∃ p : Piece, p.StandsFor c ∧ ∀ rev rest,
      tokensFrom (.string rev) (escape c ++ rest) = tokensFrom (.string (p :: rev)) rest := by
  obtain ⟨letter, hletter, hescaped, heq⟩ | ⟨hcontrol, heq⟩ | ⟨hquote, hbackslash, hplain, heq⟩ :=
    escape_cases c
  · rw [heq]
    exact ⟨.char c, rfl, fun rev rest => tokensFrom_escaped hletter hescaped rev rest⟩
  · rw [heq]
    exact ⟨.unit c.toNat, ⟨rfl, hcontrol⟩, fun rev rest => tokensFrom_unit hcontrol rev rest⟩
  · rw [heq]
    refine ⟨.char c, rfl, fun rev rest => ?_⟩
    have hstep : (Mode.string rev).step c = some (.string (.char c :: rev), []) := by
      simp [Mode.step, hquote, hbackslash, hplain]
    rw [List.singleton_append, tokensFrom_cons_silent hstep]

/-- The characters of a string are read as pieces that join to them. -/
theorem exists_joinPieces_flatMap_escape (cs : List Char) :
    ∃ ps, joinPieces ps = some cs ∧ ∀ rev rest,
      tokensFrom (.string rev) (cs.flatMap escape ++ rest) =
        tokensFrom (.string (ps.reverse ++ rev)) rest := by
  induction cs with
  | nil => exact ⟨[], rfl, fun rev rest => rfl⟩
  | cons c cs ih =>
    obtain ⟨p, hp, hread⟩ := exists_standsFor_escape c
    obtain ⟨ps, hps, hreads⟩ := ih
    refine ⟨p :: ps, by rw [joinPieces_cons hp, hps]; rfl, fun rev rest => ?_⟩
    rw [List.flatMap_cons, List.append_assoc, hread, hreads, List.reverse_cons, List.append_assoc]
    rfl

/-- A string in quotes is cut as the text that was written. -/
theorem lexes_quote (text : String) : Lexes (quote text) [.string (some text)] := by
  intro rest _
  obtain ⟨ps, hps, hreads⟩ := exists_joinPieces_flatMap_escape text.toList
  have hopen : Mode.between.step '"' = some (.string [], []) := by
    simp [Mode.step, startToken, isBlank]
  have hclose : (Mode.string ps.reverse).step '"' =
      some (.between, [.string (some text)]) := by
    simp [Mode.step, hps, String.ofList_toList]
  rw [quote, List.cons_append, List.cons_append, List.append_assoc, tokensFrom_cons_silent hopen,
    hreads, List.append_nil, List.singleton_append, tokensFrom_cons hclose]

end LightClient.Json
