import Criteria.Proofs.Json.Literal

/-!
# JSON texts read back

The text of a value whose numbers are finite is split into the tokens of the value, and
from these the value is read as it was written.

* `Json.tokens`, `Json.raw`: a value as tokens, and as it is written;
* `split?_pretty`: the tokens of the text with indentation;
* `run?_tokens`: what is read of the tokens;
* `read?_prettyText`: what is read of the text.
-/

namespace Criteria

namespace Json

/-! ## Values as they are written -/

mutual

/-- Whether all numbers in a value are finite binary64 numbers. -/
def Floats : Json → Prop
  | .number (.float x) => x.isFinite
  | .number (.integer _) => False
  | .array items => ItemFloats items
  | .object fields => FieldFloats fields
  | _ => True

/-- Whether all numbers in items are finite binary64 numbers. -/
def ItemFloats : List Json → Prop
  | [] => True
  | item :: items => item.Floats ∧ ItemFloats items

/-- Whether all numbers in fields are finite binary64 numbers. -/
def FieldFloats : List (String × Json) → Prop
  | [] => True
  | (_, value) :: fields => value.Floats ∧ FieldFloats fields

end

mutual

/-- The tokens of a value. -/
def tokens : Json → List Token
  | .null => [.null]
  | .boolean b => [.boolean b]
  | .number n => [.number n.numeral]
  | .string s => [.string (some s)]
  | .array items => .openBracket :: (itemTokens items ++ [.closeBracket])
  | .object fields => .openBrace :: (fieldTokens fields ++ [.closeBrace])

/-- The tokens of items, between commas. -/
def itemTokens : List Json → List Token
  | [] => []
  | [item] => item.tokens
  | item :: items => item.tokens ++ .comma :: itemTokens items

/-- The tokens of fields, between commas. -/
def fieldTokens : List (String × Json) → List Token
  | [] => []
  | [(key, value)] => .string (some key) :: .colon :: value.tokens
  | (key, value) :: fields =>
    .string (some key) :: .colon :: (value.tokens ++ .comma :: fieldTokens fields)

end

mutual

/-- A value as it is written. -/
def raw : Json → Raw
  | .null => .null
  | .boolean b => .boolean b
  | .number n => .number n.numeral
  | .string s => .string (some s)
  | .array items => .array (itemRaws items)
  | .object fields => .object (fieldRaws fields)

/-- Items as they are written. -/
def itemRaws : List Json → List Raw
  | [] => []
  | item :: items => item.raw :: itemRaws items

/-- Fields as they are written. -/
def fieldRaws : List (String × Json) → List (Option String × Raw)
  | [] => []
  | (key, value) :: fields => (some key, value.raw) :: fieldRaws fields

end

/-! ## Splitting -/

namespace Token

theorem split?_blank {c : Char} (h : isBlank c) (rest : List Char) :
    split? (c :: rest) = split? rest := by
  rw [split?, if_pos h]

theorem split?_newline (level : Nat) (rest : List Char) :
    split? (newline level ++ rest) = split? rest := by
  rw [newline, List.cons_append, split?_blank (by decide)]
  induction 2 * level with
  | zero => rfl
  | succ k ih => rw [List.replicate_succ, List.cons_append, split?_blank (by decide), ih]

theorem split?_take {c : Char} {rest after : List Char} {token : Token} (hb : ¬isBlank c)
    (h : take? c rest = some (token, after)) :
    split? (c :: rest) = (split? after).map (token :: ·) := by
  rw [split?, if_neg hb]
  split
  · rename_i heq
    rw [heq] at h
    simp at h
  · rename_i heq
    rw [heq] at h
    obtain ⟨rfl, rfl⟩ := Prod.mk.inj (Option.some.inj h)
    rfl

theorem split?_quote (s : String) (rest : List Char) :
    split? (quote s ++ rest) = (split? rest).map (.string (some s) :: ·) := by
  have htake := take?_quote s rest
  rw [quote, List.cons_append, List.append_assoc, List.singleton_append]
  exact split?_take (by decide) htake

/-- The text of a number starts with a sign or a digit. -/
theorem split?_number {x : Number} (hx : x.isFinite) {rest : List Char}
    (hr : Text.Stops isNumberChar rest) :
    split? ((Num.float x).chars ++ rest) =
      (split? rest).map (.number (Num.float x).numeral :: ·) := by
  have htake := takeNumber?_chars hx hr
  obtain ⟨c, cs, hcs, hc⟩ : ∃ c cs, (Num.float x).chars = c :: cs ∧ (c = '-' ∨ c.isDigit) := by
    cases x with
    | nan => simp [Number.isFinite] at hx
    | infinite negative => simp [Number.isFinite] at hx
    | finite negative rank =>
      obtain ⟨s, hs, -⟩ := exists_chars_eq negative rank
      obtain ⟨first, whole, hw⟩ := List.exists_cons_of_ne_nil s.whole_ne_nil
      rw [hs]
      cases negative with
      | true => exact ⟨'-', s.chars, rfl, .inl rfl⟩
      | false =>
        exact ⟨first, whole ++ Spelling.pointed s.fraction ++ Spelling.powered s.exponent,
          by simp [Spelling.chars, hw], .inr (s.isDigit_whole first (by simp [hw]))⟩
  rw [hcs, List.cons_append] at htake ⊢
  refine split?_take ?_ ?_
  · intro hb
    rcases hc with rfl | hc
    · exact absurd hb (by decide)
    · simp only [isBlank, Bool.or_eq_true, beq_iff_eq] at hb
      rcases hb with ((rfl | rfl) | rfl) | rfl <;> exact absurd hc (by decide)
  · -- No other token starts with a sign or a digit.
    unfold take?
    split
    case h_11 => rw [htake]; rfl
    all_goals exact absurd hc (by decide)

theorem stops_newline (level : Nat) (rest : List Char) :
    Text.Stops isNumberChar (newline level ++ rest) := Text.stops_cons.2 (by decide)

mutual

/-- The text of a value is split into its tokens. -/
theorem split?_pretty : ∀ (json : Json) (level : Nat) (rest : List Char), json.Floats →
    Text.Stops isNumberChar rest →
      split? (pretty level json ++ rest) = (split? rest).map (json.tokens ++ ·)
  | .null, _, rest, _, _ => split?_take (by decide) rfl
  | .boolean true, _, rest, _, _ => split?_take (by decide) rfl
  | .boolean false, _, rest, _, _ => split?_take (by decide) rfl
  | .number (.float _), _, _, hj, hr => split?_number hj hr
  | .string s, _, rest, _, _ => split?_quote s rest
  | .array [], _, rest, _, _ => by
    rw [pretty, List.cons_append, List.cons_append, List.nil_append, split?_take (by decide) rfl,
      split?_take (by decide) rfl]
    cases split? rest <;> rfl
  | .array (item :: items), level, rest, hj, _ => by
    have hitems := split?_prettyItems (item :: items) (level + 1) (newline level ++ ']' :: rest) hj
      (stops_newline _ _)
    rw [pretty, List.cons_append, List.append_assoc, List.append_assoc, List.singleton_append,
      split?_take (by decide) rfl, hitems, split?_newline, split?_take (by decide) rfl]
    · cases split? rest <;> simp [tokens]
    · simp
  | .object [], _, rest, _, _ => by
    rw [pretty, List.cons_append, List.cons_append, List.nil_append, split?_take (by decide) rfl,
      split?_take (by decide) rfl]
    cases split? rest <;> rfl
  | .object (field :: fields), level, rest, hj, _ => by
    have hfields := split?_prettyFields (field :: fields) (level + 1)
      (newline level ++ '}' :: rest) hj (stops_newline _ _)
    rw [pretty, List.cons_append, List.append_assoc, List.append_assoc, List.singleton_append,
      split?_take (by decide) rfl, hfields, split?_newline, split?_take (by decide) rfl]
    · cases split? rest <;> simp [tokens]
    · simp

/-- The text of items is split into their tokens. -/
theorem split?_prettyItems : ∀ (items : List Json) (level : Nat) (rest : List Char),
    ItemFloats items → Text.Stops isNumberChar rest →
      split? (prettyItems level items ++ rest) = (split? rest).map (itemTokens items ++ ·)
  | [], _, rest, _, _ => by
    rw [prettyItems, List.nil_append]
    cases split? rest <;> rfl
  | [item], level, rest, hj, hr => by
    rw [prettyItems, List.append_assoc, split?_newline, split?_pretty item level rest hj.1 hr]
    rfl
  | item :: next :: items, level, rest, hj, hr => by
    have hitem := split?_pretty item level
      (',' :: (prettyItems level (next :: items) ++ rest)) hj.1 (Text.stops_cons.2 (by decide))
    have hitems := split?_prettyItems (next :: items) level rest hj.2 hr
    rw [prettyItems, List.append_assoc, List.append_assoc, List.cons_append, split?_newline, hitem,
      split?_take (by decide) rfl, hitems]
    · cases split? rest <;> simp [itemTokens]
    · simp

/-- The text of fields is split into their tokens. -/
theorem split?_prettyFields : ∀ (fields : List (String × Json)) (level : Nat) (rest : List Char),
    FieldFloats fields → Text.Stops isNumberChar rest →
      split? (prettyFields level fields ++ rest) = (split? rest).map (fieldTokens fields ++ ·)
  | [], _, rest, _, _ => by
    rw [prettyFields, List.nil_append]
    cases split? rest <;> rfl
  | [(key, value)], level, rest, hj, hr => by
    have hvalue := split?_pretty value level rest hj.1 hr
    simp only [prettyFields, List.append_assoc, List.cons_append]
    rw [split?_newline, split?_quote, split?_take (by decide) rfl, split?_blank (by decide), hvalue]
    cases split? rest <;> rfl
  | (key, value) :: next :: fields, level, rest, hj, hr => by
    have hvalue := split?_pretty value level
      (',' :: (prettyFields level (next :: fields) ++ rest)) hj.1 (Text.stops_cons.2 (by decide))
    have hfields := split?_prettyFields (next :: fields) level rest hj.2 hr
    simp only [prettyFields, List.append_assoc, List.cons_append]
    rw [split?_newline, split?_quote, split?_take (by decide) rfl, split?_blank (by decide), hvalue,
      split?_take (by decide) rfl, hfields]
    cases split? rest <;> simp [fieldTokens]

end

end Token

/-! ## Reading tokens -/

namespace Raw

/-- What follows an opening bracket is a value unless it is the closing one. -/
theorem run?_arrayStart {tokens : List Token} (h : tokens.head? ≠ some .closeBracket)
    (outer : List Open) :
    run? (.arrayStart outer) tokens = run? (.value (.array [] :: outer)) tokens := by
  cases tokens with
  | nil => rfl
  | cons token tokens =>
    have hne : token ≠ .closeBracket := fun heq => h (by rw [heq]; rfl)
    have hnext : (State.arrayStart outer).next? token =
        (State.value (.array [] :: outer)).next? token := by
      cases token <;> first | rfl | exact absurd rfl hne
    rw [run?, run?, hnext]

theorem head?_tokens (json : Json) : json.tokens.head? ≠ some .closeBracket := by
  cases json <;> simp [tokens]

theorem head?_itemTokens (items : List Json) (rest : List Token) (h : items ≠ []) :
    (itemTokens items ++ rest).head? ≠ some .closeBracket := by
  obtain ⟨item, more, rfl⟩ := List.exists_cons_of_ne_nil h
  have hitem : ∀ after, (item.tokens ++ after).head? ≠ some .closeBracket := by
    intro after
    have := head?_tokens item
    cases item <;> simp [tokens]
  cases more with
  | nil => exact hitem rest
  | cons next more =>
    rw [itemTokens, List.append_assoc]
    · exact hitem _
    · simp

mutual

/-- From the tokens of a value, the value is read as it is written. -/
theorem run?_tokens : ∀ (json : Json) (outer : List Open) (rest : List Token),
    run? (.value outer) (json.tokens ++ rest) = run? (.complete json.raw outer) rest
  | .null, _, _ => rfl
  | .boolean _, _, _ => rfl
  | .number _, _, _ => rfl
  | .string _, _, _ => rfl
  | .array [], _, _ => rfl
  | .array (item :: items), outer, rest => by
    have hitems := run?_itemTokens (item :: items) (by simp) [] outer rest
    have hhead := head?_itemTokens (item :: items) (.closeBracket :: rest) (by simp)
    rw [tokens, List.cons_append, List.append_assoc, List.singleton_append]
    exact (run?_arrayStart hhead outer).trans hitems
  | .object [], _, _ => rfl
  | .object (field :: fields), outer, rest => by
    have hfields := run?_fieldTokens (field :: fields) (by simp) [] outer rest
    obtain ⟨key, value⟩ := field
    rw [tokens, List.cons_append, List.append_assoc, List.singleton_append]
    refine Eq.trans ?_ hfields
    cases fields <;> rfl

/-- The items of an array are read up to its end. -/
theorem run?_itemTokens : ∀ (items : List Json), items ≠ [] →
    ∀ (before : List Raw) (outer : List Open) (rest : List Token),
      run? (.value (.array before :: outer)) (itemTokens items ++ .closeBracket :: rest) =
        run? (.complete (.array (before.reverse ++ itemRaws items)) outer) rest
  | [], h, _, _, _ => absurd rfl h
  | [item], _, before, outer, rest => by
    rw [itemTokens, run?_tokens item]
    simp [run?, State.next?, itemRaws]
  | item :: next :: items, _, before, outer, rest => by
    have hitems := run?_itemTokens (next :: items) (by simp) (item.raw :: before) outer rest
    rw [itemTokens, List.append_assoc, List.cons_append, run?_tokens item]
    · refine Eq.trans hitems ?_
      simp [itemRaws]
    · simp

/-- The fields of an object are read up to its end. -/
theorem run?_fieldTokens : ∀ (fields : List (String × Json)), fields ≠ [] →
    ∀ (before : List (Option String × Raw)) (outer : List Open) (rest : List Token),
      run? (.key before outer) (fieldTokens fields ++ .closeBrace :: rest) =
        run? (.complete (.object (before.reverse ++ fieldRaws fields)) outer) rest
  | [], h, _, _, _ => absurd rfl h
  | [(key, value)], _, before, outer, rest => by
    have hvalue := run?_tokens value (.object before (some key) :: outer) (.closeBrace :: rest)
    refine Eq.trans hvalue ?_
    simp [run?, State.next?, fieldRaws]
  | (key, value) :: next :: fields, _, before, outer, rest => by
    have hvalue := run?_tokens value (.object before (some key) :: outer)
      (.comma :: (fieldTokens (next :: fields) ++ .closeBrace :: rest))
    have hfields := run?_fieldTokens (next :: fields) (by simp) ((some key, value.raw) :: before)
      outer rest
    have htokens : fieldTokens ((key, value) :: next :: fields) ++ .closeBrace :: rest =
        .string (some key) :: .colon :: (value.tokens ++
          .comma :: (fieldTokens (next :: fields) ++ .closeBrace :: rest)) := by
      simp [fieldTokens]
    rw [htokens]
    refine Eq.trans hvalue (Eq.trans hfields ?_)
    simp [fieldRaws]

end

end Raw

/-- The text of a value with finite numbers is read as the value is written. -/
theorem read?_prettyText {json : Json} (h : json.Floats) :
    Raw.read? json.prettyText = some json.raw := by
  have hsplit := Token.split?_pretty json 0 [] h Text.stops_nil
  have hempty : Token.split? [] = some [] := by rw [Token.split?]
  have hrun := Raw.run?_tokens json [] []
  rw [List.append_nil] at hsplit hrun
  rw [Raw.read?, prettyText, String.toList_ofList, hsplit, hempty, Option.map_some,
    Option.bind_some, List.append_nil, hrun]
  rfl

end Json

end Criteria
