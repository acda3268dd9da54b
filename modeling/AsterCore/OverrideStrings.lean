import AsterCore.OverrideLexer

namespace AsterCore.Override

open List

/-- `decodeOverrideString`; `escaped` says that a backslash was read, here and below. -/
def decodeOverrideString : (escaped : Bool) → List UInt8 → (column : Nat) → Except ExprError (List UInt8)
  | false, [], _ => .ok []
  | true, [], column => .error (.invalidEscape (column - 1))
  | false, c :: rest, column =>
    if c = 92 then decodeOverrideString true rest (column + 1)
    else (decodeOverrideString false rest (column + 1)).map fun value => c :: value
  | true, c :: rest, column => (decodeOverrideString false rest (column + 1)).map fun value =>
    if c = 34 then 34 :: value else if c = 110 then 10 :: value else if c = 92 then 92 :: value else 92 :: c :: value

/-- `findOverrideInterpolationEnd`: the bytes before and behind the closing parenthesis; `quoted` says that the inner loop
looks for a quote. -/
def findOverrideInterpolationEnd : (escaped quoted : Bool) → (depth : Nat) → List UInt8 → Option (List UInt8 × List UInt8)
  | _, _, _, [] => none
  | escaped, quoted, depth, c :: rest =>
    let go := fun escaped quoted depth => (findOverrideInterpolationEnd escaped quoted depth rest).map fun r => (c :: r.1, r.2)
    if escaped then go false quoted depth
    else if c = 92 then go true quoted depth
    else if c = 34 then go false (!quoted) depth
    else if quoted then go false quoted depth
    else if c = 40 then go false quoted (depth + 1)
    else if c = 41 then if depth = 0 then some ([], rest) else go false quoted (depth - 1)
    else go false quoted depth

/-- `strings.ReplaceAll` of an escaped quote by a quote. -/
def unescapeQuotes : (escaped : Bool) → List UInt8 → List UInt8
  | escaped, [] => if escaped then [92] else []
  | false, c :: rest => if c = 92 then unescapeQuotes true rest else c :: unescapeQuotes false rest
  | true, c :: rest =>
    if c = 34 then 34 :: unescapeQuotes false rest
    else if c = 92 then 92 :: unescapeQuotes true rest
    else 92 :: c :: unescapeQuotes false rest

/-- The bytes up to the next interpolation, and those behind its opening parenthesis. -/
def splitLiteral : (escaped : Bool) → List UInt8 → List UInt8 × Option (List UInt8)
  | escaped, [] => (if escaped then [92] else [], none)
  | false, c :: rest =>
    if c = 92 then splitLiteral true rest else (c :: (splitLiteral false rest).1, (splitLiteral false rest).2)
  | true, c :: rest =>
    if c = 40 then ([], some rest) else (92 :: c :: (splitLiteral false rest).1, (splitLiteral false rest).2)

inductive StringPart (E : Type)
  | literal (text : List UInt8)
  | expression (e : E)

/-- What `parseString` makes of a token: an `overrideLiteralExpr` or an `overrideStringExpr`. -/
inductive StringExpr (E : Type)
  | literal (text : List UInt8)
  | parts (parts : List (StringPart E))

section Parsing

variable {E : Type} (parseOverrideValueExpr : List UInt8 → Except ExprError E)

def literalPart (text : List UInt8) : List (StringPart E) := if text = [] then [] else [.literal text]

/-- The loop of `parseString` from `literalStart` on. Every round takes some of the text, so its length is fuel enough. -/
def parseParts (pos : Nat) : (fuel : Nat) → (literalStart : Nat) → List UInt8 → Except ExprError (List (StringPart E))
  | 0, _, _ => .error (.unterminatedInterpolation (pos + 1))
  | fuel + 1, literalStart, text => do
    let literal ← decodeOverrideString false (splitLiteral false text).1 (pos + 1 + literalStart)
    match (splitLiteral false text).2 with
    | none => return literalPart literal
    | some rest =>
      match findOverrideInterpolationEnd false false 0 rest with
      | none => throw (.unterminatedInterpolation (pos + 1))
      | some (source, after) =>
        match parseOverrideValueExpr (unescapeQuotes false source) with
        | .error e => throw (.invalidInterpolation (pos + 1) e)
        | .ok expression =>
          let parts ← parseParts pos fuel (literalStart + (text.length - after.length)) after
          return literalPart literal ++ .expression expression :: parts

def parseString (token : Token) : Except ExprError (StringExpr E) :=
  if (splitLiteral false token.text).2 = none then (decodeOverrideString false token.text (token.pos + 1)).map .literal
  else (parseParts parseOverrideValueExpr token.pos (token.text.length + 1) 0 token.text).map .parts

def parseStringSource (source : List UInt8) : Except ExprError (StringExpr E) := do
  match ← lexOverrideExpr source with
  | [token, ⟨.eof, _, _⟩] => if token.kind = .string then parseString parseOverrideValueExpr token else throw (.unexpected 0 1)
  | _ => throw (.unexpected 0 1)

end Parsing

/-- The string literal that interpolates `e`, with the quotes of `e` escaped. -/
def escapeQuotes (e : List UInt8) : List UInt8 := e.flatMap fun c => if c = 34 then [92, 34] else [c]

def interpolated (e : List UInt8) : List UInt8 := [34, 92, 40] ++ escapeQuotes e ++ [41, 34]

/-- The parentheses are balanced behind `depth` open ones, those in strings and comments included. -/
def closes : (depth : Nat) → List UInt8 → Bool
  | depth, [] => depth = 0
  | depth, c :: e =>
    if c = 41 ∧ depth = 0 then false
    else closes (if c = 40 then depth + 1 else if c = 41 then depth - 1 else depth) e

section Interpolation

variable {e : List UInt8}

theorem escapeQuotes_cons (c : UInt8) (e : List UInt8) : escapeQuotes (c :: e) = escapeQuotes [c] ++ escapeQuotes e := by
  simp [escapeQuotes]

theorem find_cons {c : UInt8} (hc : c ≠ 92) (depth : Nat) (s : List UInt8) :
    findOverrideInterpolationEnd false false depth (escapeQuotes [c] ++ s) =
      if c = 41 ∧ depth = 0 then some ([], s)
      else (findOverrideInterpolationEnd false false (if c = 40 then depth + 1 else if c = 41 then depth - 1 else depth) s).map
        fun r => (escapeQuotes [c] ++ r.1, r.2) := by
  by_cases hq : c = 34
  · subst hq
    simp [escapeQuotes, findOverrideInterpolationEnd, Function.comp_def]
  · simp only [escapeQuotes, flatMap_cons, if_neg hq, flatMap_nil, append_nil, cons_append, nil_append,
      findOverrideInterpolationEnd, Bool.false_eq_true, if_false, if_neg hc]
    by_cases ho : c = 40
    · simp [ho]
    · by_cases hcl : c = 41
      · by_cases hd : depth = 0 <;> simp [hcl, hd]
      · simp [ho, hcl]

theorem find_escaped (he : 92 ∉ e) (depth : Nat) :
    (closes depth e = true ∧
      findOverrideInterpolationEnd false false depth (escapeQuotes e ++ [41]) = some (escapeQuotes e, [])) ∨
    closes depth e = false ∧ (findOverrideInterpolationEnd false false depth (escapeQuotes e ++ [41]) = none ∨
      ∃ e₁ e₂, 92 ∉ e₂ ∧
        findOverrideInterpolationEnd false false depth (escapeQuotes e ++ [41]) = some (e₁, escapeQuotes e₂ ++ [41])) := by
  induction e generalizing depth with
  | nil =>
    by_cases hd : depth = 0
    · exact .inl ⟨by simp [closes, hd], by simp [escapeQuotes, findOverrideInterpolationEnd, hd]⟩
    · exact .inr ⟨by simp [closes, hd], .inl (by simp [escapeQuotes, findOverrideInterpolationEnd, hd])⟩
  | cons c e ih =>
    obtain ⟨hc, he⟩ := not_or.mp (mem_cons.not.mp he)
    rw [closes, escapeQuotes_cons, append_assoc, find_cons (Ne.symm hc)]
    split
    · exact .inr ⟨rfl, .inr ⟨[], e, he, rfl⟩⟩
    · rcases ih he (if c = 40 then depth + 1 else if c = 41 then depth - 1 else depth) with ⟨hd, eq⟩ | ⟨hd, eq | ⟨e₁, e₂, he₂, eq⟩⟩
      · exact .inl ⟨hd, by rw [eq]; rfl⟩
      · exact .inr ⟨hd, .inl (by rw [eq]; rfl)⟩
      · exact .inr ⟨hd, .inr ⟨_, e₂, he₂, by rw [eq]; rfl⟩⟩

variable (he : 92 ∉ e)

include he

theorem scan_escaped (start column : Nat) :
    scanOverrideString start false (escapeQuotes e ++ [41, 34]) = .ok (escapeQuotes e ++ [41], []) ∧
      splitLiteral false (escapeQuotes e ++ [41]) = (escapeQuotes e ++ [41], none) ∧
      decodeOverrideString false (escapeQuotes e ++ [41]) column = .ok (e ++ [41]) ∧
      unescapeQuotes false (escapeQuotes e) = e := by
  induction e generalizing column with
  | nil => exact ⟨rfl, rfl, rfl, rfl⟩
  | cons c e ih =>
    obtain ⟨hc, he⟩ := not_or.mp (mem_cons.not.mp he)
    have hc := Ne.symm hc
    have ih := fun column => ih he column
    by_cases hqu : c = 34
    · subst hqu
      obtain ⟨scan, hs, hd, hu⟩ := ih (column + 2)
      have hq : escapeQuotes (34 :: e) = 92 :: 34 :: escapeQuotes e := rfl
      simp [hq, scanOverrideString, splitLiteral, decodeOverrideString, unescapeQuotes, scan, hs, hd, hu, Except.map]
    · obtain ⟨scan, hs, hd, hu⟩ := ih (column + 1)
      have hq : escapeQuotes (c :: e) = c :: escapeQuotes e := by simp [escapeQuotes, hqu]
      simp [hq, scanOverrideString, splitLiteral, decodeOverrideString, unescapeQuotes, scan, hs, hd, hu, hc, hqu,
        beq_eq_false_iff_ne.mpr hc, Except.map]

theorem lex_interpolated : lexOverrideExpr (interpolated e) =
    .ok [⟨.string, [92, 40] ++ (escapeQuotes e ++ [41]), 0⟩, ⟨.eof, [], (interpolated e).length⟩] := by
  have hs : scanOverrideString 0 false (92 :: 40 :: (escapeQuotes e ++ [41, 34])) =
      .ok (92 :: 40 :: (escapeQuotes e ++ [41]), []) := by
    simp [scanOverrideString, (scan_escaped he 0 0).1, Except.map]
  have hn : nextToken 0 34 (92 :: 40 :: (escapeQuotes e ++ [41, 34])) =
      .ok (⟨.string, 92 :: 40 :: (escapeQuotes e ++ [41]), 0⟩, []) := by
    simp [nextToken, single, double, hs, Except.map]
  have hi : interpolated e = 34 :: 92 :: 40 :: (escapeQuotes e ++ [41, 34]) := by simp [interpolated]
  rw [lexOverrideExpr, hi, length_cons, lexFrom, if_neg (by decide), if_neg (by decide), hn]
  simp [lexFrom, pure, Except.pure, bind, Except.bind]

end Interpolation

section Parts

variable {E : Type} (parseOverrideValueExpr : List UInt8 → Except ExprError E) (pos fuel literalStart : Nat)

theorem parseParts_literal {text value : List UInt8} (hs : splitLiteral false text = (text, none))
    (hd : ∀ column, decodeOverrideString false text column = .ok value) :
    parseParts parseOverrideValueExpr pos (fuel + 1) literalStart text = .ok (literalPart value) := by
  simp [parseParts, hs, hd, bind, Except.bind, pure, Except.pure]

theorem parseParts_interpolation (rest : List UInt8) :
    parseParts parseOverrideValueExpr pos (fuel + 1) literalStart (92 :: 40 :: rest) =
      match findOverrideInterpolationEnd false false 0 rest with
      | none => .error (.unterminatedInterpolation (pos + 1))
      | some (source, after) =>
        match parseOverrideValueExpr (unescapeQuotes false source) with
        | .error e => .error (.invalidInterpolation (pos + 1) e)
        | .ok x => (parseParts parseOverrideValueExpr pos fuel (literalStart + (rest.length + 2 - after.length)) after).map
          fun parts => .expression x :: parts := by
  have split : splitLiteral false (92 :: 40 :: rest) = ([], some rest) := by simp [splitLiteral]
  simp only [parseParts, split, decodeOverrideString, bind, Except.bind, pure, Except.pure, literalPart, if_pos, nil_append,
    length_cons, throw, throwThe, MonadExceptOf.throw]
  split
  · rfl
  · split
    · rfl
    · rfl

end Parts

/-- The literal that interpolates an accepted expression parses to it exactly if the parentheses in the expression are balanced,
those in its strings and comments included. -/
theorem interpolation_iff {E : Type} (parseOverrideValueExpr : List UInt8 → Except ExprError E) {e : List UInt8} {x : E}
    (he : 92 ∉ e) (accepted : parseOverrideValueExpr e = .ok x) :
    parseStringSource parseOverrideValueExpr (interpolated e) = .ok (.parts [.expression x]) ↔ closes 0 e = true := by
  have hp : parseStringSource parseOverrideValueExpr (interpolated e) =
      (parseParts parseOverrideValueExpr 0 (escapeQuotes e ++ [41]).length.succ.succ.succ 0
        (92 :: 40 :: (escapeQuotes e ++ [41]))).map .parts := by
    simp [parseStringSource, lex_interpolated he, bind, Except.bind, parseString, splitLiteral]
  rw [hp, parseParts_interpolation]
  rcases find_escaped he 0 with ⟨hc, eq⟩ | ⟨hc, eq | ⟨e₁, e₂, he₂, eq⟩⟩
  · have hu := (scan_escaped he 0 0).2.2.2
    simp only [eq, hu, accepted, hc, iff_true]
    rw [parseParts_literal _ _ _ _ rfl fun _ => rfl]
    rfl
  · simp [eq, hc, Except.map]
  · have h₂ := scan_escaped he₂ 0
    simp only [eq, hc, Bool.false_eq_true, iff_false]
    rw [parseParts_literal _ _ _ _ (h₂ 0).2.1 fun column => (h₂ column).2.2.1]
    split
    · simp [Except.map]
    · simp [Except.map, literalPart]

/-- The string literal `"(a)"` in a string. -/
theorem interpolation_iff_quoted :
    let parse := parseStringSource fun _ => .ok ()
    parse [34, 40, 97, 41, 34] = .ok (.literal [40, 97, 41]) ∧
      parseStringSource parse (interpolated [34, 40, 97, 41, 34]) = .ok (.parts [.expression (.literal [40, 97, 41])]) := by
  intro parse
  have accepted : parse [34, 40, 97, 41, 34] = .ok (.literal [40, 97, 41]) := rfl
  exact ⟨accepted, (interpolation_iff parse (by decide) accepted).mpr (by decide)⟩

/-- The string literal of a closing parenthesis is accepted, and its interpolation is not. -/
theorem interpolation_of_parenthesis :
    let parse := parseStringSource fun _ => .ok ()
    parse [34, 41, 34] = .ok (.literal [41]) ∧
      parseStringSource parse (interpolated [34, 41, 34]) = .error (.invalidInterpolation 1 (.unterminatedString 1)) :=
  ⟨rfl, rfl⟩

end AsterCore.Override
