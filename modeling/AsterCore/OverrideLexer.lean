import AsterCore.GoRunes

namespace AsterCore.Override

open List Char

inductive TokenKind
  | eof | identifier | string | number | dot | leftParen | rightParen | leftBracket | rightBracket | leftBrace | rightBrace
  | comma | semicolon | colon | pipe | assign | updateAssign | addAssign | subtractAssign | multiplyAssign | plus | minus
  | multiply | divide | modulo | alternative | equal | notEqual | less | lessEqual | greater | greaterEqual
  deriving DecidableEq

structure Token where
  kind : TokenKind
  text : List UInt8
  pos : Nat
  deriving DecidableEq

/-- The errors, with the column that the message names. -/
inductive ExprError
  | unexpected (ch : UInt8) (column : Nat)
  | unterminatedString (column : Nat)
  | invalidEscape (column : Nat)
  | unterminatedInterpolation (column : Nat)
  | invalidInterpolation (column : Nat) (e : ExprError)
  | invalidNumber (column : Nat) (text : List UInt8)
  deriving DecidableEq

/-- `unicode.IsSpace` of a byte. -/
def isSpace (ch : UInt8) : Bool := 9 ≤ ch && ch ≤ 13 || ch == 32 || ch == 0x85 || ch == 0xA0

/-- `unicode.IsLetter` of a byte. -/
def isLetter (ch : UInt8) : Bool :=
  65 ≤ ch && ch ≤ 90 || 97 ≤ ch && ch ≤ 122 || ch == 0xAA || ch == 0xB5 || ch == 0xBA || 0xC0 ≤ ch && ch != 0xD7 && ch != 0xF7

def isDigit (ch : UInt8) : Bool := 48 ≤ ch && ch ≤ 57

def isHexDigit (ch : UInt8) : Bool := isDigit ch || 97 ≤ ch && ch ≤ 102 || 65 ≤ ch && ch ≤ 70

def isOverrideIdentifierStart (ch : UInt8) : Bool := ch == 95 || isLetter ch

def isOverrideIdentifierPart (ch : UInt8) : Bool := ch == 95 || ch == 45 || isLetter ch || isDigit ch

/-- `scanOverrideString` behind the opening quote: the value, and what follows the closing quote. `escaped` says that a
backslash was read. -/
def scanOverrideString (start : Nat) : (escaped : Bool) → List UInt8 → Except ExprError (List UInt8 × List UInt8)
  | _, [] => .error (.unterminatedString (start + 1))
  | escaped, c :: rest =>
    if escaped = false ∧ c = 34 then .ok ([], rest)
    else (scanOverrideString start (!escaped && c == 92) rest).map fun r => (c :: r.1, r.2)

/-- The rest of a number behind its digits and its point. -/
def scanExponent : List UInt8 → List UInt8
  | c :: rest =>
    if c = 101 ∨ c = 69 then
      (if rest.head? = some 43 ∨ rest.head? = some 45 then rest.tail else rest).dropWhile isDigit
    else c :: rest
  | [] => []

def scanOverrideNumber (source : List UInt8) : List UInt8 :=
  if source.head? = some 48 ∧ (source[1]? = some 120 ∨ source[1]? = some 88) then (source.drop 2).dropWhile isHexDigit
  else
    let rest := source.dropWhile isDigit
    scanExponent (if rest.head? = some 46 then rest.tail.dropWhile isDigit else rest)

def single : UInt8 → Option TokenKind
  | 46 => some .dot
  | 40 => some .leftParen
  | 41 => some .rightParen
  | 91 => some .leftBracket
  | 93 => some .rightBracket
  | 123 => some .leftBrace
  | 125 => some .rightBrace
  | 44 => some .comma
  | 59 => some .semicolon
  | 58 => some .colon
  | 37 => some .modulo
  | 126 => some .identifier
  | _ => none

/-- The tokens that a second byte prolongs, and the shorter ones. -/
def double : UInt8 → Option (UInt8 × TokenKind × Option TokenKind)
  | 124 => some (61, .updateAssign, some .pipe)
  | 43 => some (61, .addAssign, some .plus)
  | 45 => some (61, .subtractAssign, some .minus)
  | 42 => some (61, .multiplyAssign, some .multiply)
  | 47 => some (47, .alternative, some .divide)
  | 61 => some (61, .equal, some .assign)
  | 33 => some (61, .notEqual, none)
  | 60 => some (61, .lessEqual, some .less)
  | 62 => some (61, .greaterEqual, some .greater)
  | _ => none

/-- The token that begins with a byte, and what follows it. -/
def nextToken (pos : Nat) (ch : UInt8) (rest : List UInt8) : Except ExprError (Token × List UInt8) :=
  match single ch, double ch with
  | some kind, _ => .ok (⟨kind, [ch], pos⟩, rest)
  | none, some (second, long, short) =>
    if rest.head? = some second then .ok (⟨long, [ch, second], pos⟩, rest.tail)
    else
      match short with
      | some kind => .ok (⟨kind, [ch], pos⟩, rest)
      | none => .error (.unexpected ch (pos + 1))
  | none, none =>
    if ch = 34 then (scanOverrideString pos false rest).map fun r => (⟨.string, r.1, pos⟩, r.2)
    else if isDigit ch then
      let after := scanOverrideNumber (ch :: rest)
      .ok (⟨.number, (ch :: rest).take (rest.length + 1 - after.length), pos⟩, after)
    else if isOverrideIdentifierStart ch then
      .ok (⟨.identifier, ch :: rest.takeWhile isOverrideIdentifierPart, pos⟩, rest.dropWhile isOverrideIdentifierPart)
    else .error (.unexpected ch (pos + 1))

/-- The loop of `lexOverrideExpr` at a position; every round takes a byte, so the length of the source is fuel enough. -/
def lexFrom : (fuel : Nat) → (pos : Nat) → List UInt8 → Except ExprError (List Token)
  | _, pos, [] => .ok [⟨.eof, [], pos⟩]
  | 0, pos, ch :: _ => .error (.unexpected ch (pos + 1))
  | fuel + 1, pos, ch :: rest =>
    if isSpace ch then lexFrom fuel (pos + 1) rest
    else if ch = 35 then .ok [⟨.eof, [], pos + 1 + rest.length⟩]
    else do
      let (token, after) ← nextToken pos ch rest
      let tokens ← lexFrom fuel (pos + (rest.length + 1 - after.length)) after
      return token :: tokens

def lexOverrideExpr (source : List UInt8) : Except ExprError (List Token) := lexFrom source.length 0 source

inductive Mode
  | plain
  | quoted
  | escaped

def outside : Mode → List UInt8 → List UInt8
  | _, [] => []
  | .plain, c :: rest => if c = 35 then [] else c :: outside (if c = 34 then .quoted else .plain) rest
  | .quoted, c :: rest => outside (if c = 92 then .escaped else if c = 34 then .plain else .quoted) rest
  | .escaped, _ :: rest => outside .quoted rest

/-- The characters with the property `White_Space`. -/
def whiteSpace (c : Char) : Bool :=
  let n := c.toNat
  9 ≤ n && n ≤ 13 || [32, 0x85, 0xA0, 0x1680, 0x2028, 0x2029, 0x202F, 0x205F, 0x3000].contains n || 0x2000 ≤ n && n ≤ 0x200A

/-- From a position on, the source is tokens, white space characters between them, and at its end maybe a comment. -/
inductive Covered : (pos : Nat) → List UInt8 → List Token → Prop
  | eof {pos : Nat} : Covered pos [] [⟨.eof, [], pos⟩]
  | comment {pos : Nat} (rest : List UInt8) : Covered pos (35 :: rest) [⟨.eof, [], pos + 1 + rest.length⟩]
  | space {pos : Nat} {rest : List UInt8} {tokens : List Token} (c : Char) (white : whiteSpace c = true)
      (h : Covered (pos + (encode [c]).length) rest tokens) : Covered pos (encode [c] ++ rest) tokens
  | token {rest : List UInt8} {tokens : List Token} (t : Token) {bytes : List UInt8}
      (own : t.kind = .string ∧ bytes = 34 :: t.text ++ [34] ∨ bytes = t.text)
      (h : Covered (t.pos + bytes.length) rest tokens) : Covered t.pos (bytes ++ rest) (t :: tokens)

def ValidUTF8 (text : List UInt8) : Prop := ∃ cs, text = encode cs

section Boundaries

variable {cs ds : List Char} {xs ys : List UInt8}

theorem encode_suffix (h : encode cs = encode ds ++ ys) : ValidUTF8 ys := by
  induction ds generalizing cs with
  | nil => exact ⟨cs, h.symm⟩
  | cons d ds ih =>
    cases cs with
    | nil =>
      have hl := congrArg length h
      have hd := utf8Size_pos d
      simp at hl
      omega
    | cons c cs =>
      have hr := congrArg decodeRune h
      rw [encode_cons, encode_cons, append_assoc, decodeRune_encode, decodeRune_encode] at hr
      cases (Prod.mk.inj hr).1
      rw [encode_cons, encode_cons, append_assoc] at h
      exact ih (append_cancel_left h)

theorem encode_split (h : encode cs = xs ++ ys) (hf : ∀ b ∈ ys.head?, b.IsUTF8FirstByte) : ValidUTF8 xs ∧ ValidUTF8 ys := by
  induction cs generalizing xs with
  | nil =>
    obtain ⟨rfl, rfl⟩ := append_eq_nil_iff.mp h.symm
    exact ⟨⟨[], rfl⟩, ⟨[], rfl⟩⟩
  | cons c cs ih =>
    rw [encode_cons] at h
    rcases append_eq_append_iff.mp h with ⟨t, rfl, ht⟩ | ⟨t, hc, rfl⟩
    · obtain ⟨⟨ds, rfl⟩, hy⟩ := ih ht
      exact ⟨⟨c :: ds, rfl⟩, hy⟩
    · cases t with
      | nil => exact ⟨⟨[c], by simpa using hc.symm⟩, ⟨cs, rfl⟩⟩
      | cons b t =>
        have hi : xs.length < (String.utf8EncodeChar c).length := by simp [hc]
        have hb : (String.utf8EncodeChar c)[xs.length] = b := by simp [hc]
        have hfi := hf b rfl
        rw [← hb, UInt8.isUTF8FirstByte_getElem_utf8EncodeChar, length_eq_zero_iff] at hfi
        subst hfi
        exact ⟨⟨[], rfl⟩, ⟨c :: cs, by rw [encode_cons, hc]; rfl⟩⟩

theorem first_of_encode {b : UInt8} {s : List UInt8} (h : encode cs = b :: s) : b.IsUTF8FirstByte := by
  cases cs with
  | nil => cases h
  | cons c cs =>
    have hp : 0 < (String.utf8EncodeChar c).length := by simp [utf8Size_pos]
    have hb : (String.utf8EncodeChar c)[0] = b := by
      rw [encode_cons] at h
      have := congrArg (fun l => l[0]?) h
      simpa [getElem?_append_left hp, getElem?_eq_getElem hp] using this
    rw [← hb]
    exact UInt8.isUTF8FirstByte_getElem_zero_utf8EncodeChar

end Boundaries

section Scanning

variable {s r t : List UInt8}

def ordinary (b : UInt8) : Bool := b < 128 && b != 34 && b != 35

def Scans (s r : List UInt8) : Prop := ∃ bytes, s = bytes ++ r ∧ ∀ b ∈ bytes, ordinary b = true

theorem Scans.trans (h : Scans s r) (h' : Scans r t) : Scans s t := by
  obtain ⟨xs, rfl, hx⟩ := h
  obtain ⟨ys, rfl, hy⟩ := h'
  exact ⟨xs ++ ys, (append_assoc ..).symm, fun b mem => (mem_append.mp mem).elim (hx b) (hy b)⟩

theorem scans_tail {b : UInt8} (hh : s.head? = some b) (hb : ordinary b = true) : Scans s s.tail := by
  obtain ⟨rest, rfl⟩ := head?_eq_some_iff.mp hh
  exact ⟨[b], rfl, by simpa using hb⟩

theorem forall_byte {p : UInt8 → Prop} (h : ∀ n : Fin 256, p (UInt8.ofNat n)) (b : UInt8) : p b := by
  have := h ⟨b.toNat, b.toNat_lt⟩
  rwa [UInt8.ofNat_toNat] at this

/-- How the tests of the lexer go together, for each of the 256 bytes. -/
theorem byte_classes : ∀ b : UInt8,
    ((single b).isSome = true ∨ (double b).isSome = true ∨ isDigit b = true ∨ isHexDigit b = true → ordinary b = true) ∧
    ((double b).all fun x => ordinary x.1) = true ∧
    (ordinary b = true → b < 128 ∧ (b ≠ 34 ∧ b ≠ 35) ∧ b ≠ 0x85 ∧ b ≠ 0xA0) ∧
    (isOverrideIdentifierPart b = true → (b ≠ 34 ∧ b ≠ 35) ∧ b ≠ 0x85 ∧ b ≠ 0xA0) :=
  forall_byte (by decide +kernel)

theorem high_byte : ∀ b : UInt8, 128 ≤ b → isOverrideIdentifierPart b = false →
    (b = 0x85 ∨ b = 0xA0) ∨ isSpace b = false ∧ b ≠ 35 ∧ single b = none ∧ double b = none ∧ b ≠ 34 ∧
      isDigit b = false ∧ isOverrideIdentifierStart b = false :=
  forall_byte (by decide +kernel)

theorem space_byte : ∀ b : UInt8, (¬ 128 ≤ b → b.IsUTF8FirstByte) ∧ (isSpace b = true → b.IsUTF8FirstByte →
    encode [ofUInt8 b] = [b] ∧ whiteSpace (ofUInt8 b) = true ∧ b ≠ 34 ∧ b ≠ 35 ∧ b ≠ 0x85 ∧ b ≠ 0xA0) :=
  forall_byte (by decide +kernel)

theorem ordinary_of_test {b : UInt8}
    (h : (single b).isSome = true ∨ (double b).isSome = true ∨ isDigit b = true ∨ isHexDigit b = true) : ordinary b = true :=
  (byte_classes b).1 h

theorem scans_dropWhile {p : UInt8 → Bool} (hp : ∀ b, p b = true → ordinary b = true) : Scans s (s.dropWhile p) :=
  ⟨s.takeWhile p, takeWhile_append_dropWhile.symm, fun b mem => hp b (all_eq_true.mp all_takeWhile b mem)⟩

theorem scans_digits : Scans s (s.dropWhile isDigit) :=
  scans_dropWhile fun _ hd => ordinary_of_test (.inr (.inr (.inl hd)))

theorem scans_exponent : Scans s (scanExponent s) := by
  unfold scanExponent
  split
  next c rest =>
    split
    next he =>
      have hc : Scans (c :: rest) rest := scans_tail rfl (by rcases he with rfl | rfl <;> rfl)
      refine hc.trans ?_
      split
      next hs =>
        refine Scans.trans ?_ scans_digits
        rcases hs with hs | hs
        · exact scans_tail hs rfl
        · exact scans_tail hs rfl
      · exact scans_digits
    · exact ⟨[], rfl, nofun⟩
  · exact ⟨[], rfl, nofun⟩

theorem scans_number {ch : UInt8} (hd : isDigit ch = true) (rest : List UInt8) :
    Scans rest (scanOverrideNumber (ch :: rest)) := by
  unfold scanOverrideNumber
  split
  next hex =>
    have hx : Scans rest rest.tail := by
      rcases hex.2 with hx | hx
      · exact scans_tail (by simpa [head?_eq_getElem?] using hx) rfl
      · exact scans_tail (by simpa [head?_eq_getElem?] using hx) rfl
    rw [drop_succ_cons, drop_one]
    exact hx.trans (scans_dropWhile fun _ hd => ordinary_of_test (.inr (.inr (.inr hd))))
  · rw [dropWhile_cons_of_pos hd]
    refine scans_digits.trans (Scans.trans ?_ scans_exponent)
    split
    next hp => exact (scans_tail hp rfl).trans scans_digits
    · exact ⟨[], rfl, nofun⟩

end Scanning

theorem outside_append {xs : List UInt8} (hx : ∀ b ∈ xs, b ≠ 34 ∧ b ≠ 35) (ys : List UInt8) :
    outside .plain (xs ++ ys) = xs ++ outside .plain ys := by
  induction xs with
  | nil => rfl
  | cons x xs ih =>
    obtain ⟨hq, hh⟩ := hx x mem_cons_self
    rw [cons_append, outside, if_neg hh, if_neg hq, ih fun b mem => hx b (mem_cons_of_mem x mem)]
    rfl

theorem map_eq_ok {ε α β : Type} {x : Except ε α} {f : α → β} {b : β} (h : x.map f = .ok b) : ∃ a, x = .ok a ∧ f a = b := by
  cases x with
  | error => cases h
  | ok a => exact ⟨a, rfl, Except.ok.inj h⟩

theorem scanOverrideString_spec {start : Nat} {escaped : Bool} {s : List UInt8} {r : List UInt8 × List UInt8}
    (h : scanOverrideString start escaped s = .ok r) :
    s = r.1 ++ 34 :: r.2 ∧ outside (if escaped then .escaped else .quoted) s = outside .plain r.2 := by
  induction s generalizing escaped r with
  | nil => cases h
  | cons c s ih =>
    rw [scanOverrideString] at h
    split at h
    next hc =>
      obtain ⟨rfl, rfl⟩ := hc
      cases h
      exact ⟨rfl, rfl⟩
    next hc =>
      obtain ⟨_, hr, rfl⟩ := map_eq_ok h
      obtain ⟨eq, out⟩ := ih hr
      refine ⟨congrArg (c :: ·) eq, ?_⟩
      rw [← out]
      cases escaped with
      | true => rfl
      | false =>
        have hqu : c ≠ 34 := fun hq => hc ⟨rfl, hq⟩
        by_cases he : c = 92 <;> simp [outside, hqu, he]

theorem nextToken_cases {pos : Nat} {ch : UInt8} {rest after : List UInt8} {t : Token}
    (h : nextToken pos ch rest = .ok (t, after)) :
    t.pos = pos ∧ ((ch = 34 ∧ t.kind = .string ∧ scanOverrideString pos false rest = .ok (t.text, after)) ∨
      (t.kind = .identifier ∧ t.text = ch :: rest.takeWhile isOverrideIdentifierPart ∧
        isOverrideIdentifierPart ch = true ∧ after = rest.dropWhile isOverrideIdentifierPart) ∨
      ordinary ch = true ∧ Scans rest after ∧ ch :: rest = t.text ++ after) := by
  have hse : ∀ second kinds, double ch = some (second, kinds) → ordinary second = true := by
    intro second kinds eq
    simpa [eq] using (byte_classes ch).2.1
  unfold nextToken at h
  split at h
  next kind eq =>
    cases h
    exact ⟨rfl, .inr (.inr ⟨ordinary_of_test (.inl (by simp [eq])), ⟨[], rfl, nofun⟩, rfl⟩)⟩
  next second long short _ eq =>
    have hc := ordinary_of_test (b := ch) (.inr (.inl (by simp [eq])))
    split at h
    next hh =>
      cases h
      obtain ⟨more, rfl⟩ := head?_eq_some_iff.mp hh
      exact ⟨rfl, .inr (.inr ⟨hc, scans_tail hh (hse _ _ eq), rfl⟩)⟩
    · split at h <;> cases h
      exact ⟨rfl, .inr (.inr ⟨hc, ⟨[], rfl, nofun⟩, rfl⟩)⟩
  · split at h
    next hq =>
      obtain ⟨r, hr, eq⟩ := map_eq_ok h
      cases eq
      exact ⟨rfl, .inl ⟨hq, rfl, hr⟩⟩
    · split at h
      next hd =>
        cases h
        have hs := scans_number hd rest
        refine ⟨rfl, .inr (.inr ⟨ordinary_of_test (.inr (.inr (.inl hd))), hs, ?_⟩)⟩
        obtain ⟨bytes, eq, _⟩ := hs
        generalize scanOverrideNumber (ch :: rest) = after at eq
        have hn : rest.length + 1 - after.length = bytes.length + 1 := by
          rw [eq, length_append]
          omega
        rw [hn, eq, take_succ_cons, take_left, cons_append]
      · split at h <;> cases h
        next hst =>
          have hp : isOverrideIdentifierPart ch = true := by
            simp only [isOverrideIdentifierStart, Bool.or_eq_true] at hst
            rcases hst with hst | hst <;> simp [isOverrideIdentifierPart, hst]
          exact ⟨rfl, .inr (.inl ⟨rfl, rfl, hp, rfl⟩)⟩

section Lexing

variable {cs : List Char} {fuel pos : Nat} {tokens : List Token}

def Torn (t : Token) (after : List UInt8) : Prop :=
  t.kind = .identifier ∧ ¬ ValidUTF8 t.text ∧ (after.head? = some 0x85 ∨ after.head? = some 0xA0)

theorem lexFrom_inner {b : UInt8} {s : List UInt8} (h : lexFrom fuel pos (b :: s) = .ok tokens) (hl : 128 ≤ b)
    (hp : isOverrideIdentifierPart b = false) : b = 0x85 ∨ b = 0xA0 := by
  rcases high_byte b hl hp with hs | ⟨hs, hh, one, two, hq, hd, hst⟩
  · exact hs
  · cases fuel with
    | zero => cases h
    | succ => simp [lexFrom, nextToken, hs, hh, one, two, hq, hd, hst] at h; cases h

theorem nextToken_spec {ch : UInt8} {rest after : List UInt8} {t : Token} {next : Nat} (h : encode cs = ch :: rest)
    (hh : ch ≠ 35) (ht : nextToken pos ch rest = .ok (t, after)) (hm : lexFrom fuel next after = .ok tokens) :
    t.pos = pos ∧ ∃ bytes kept, ch :: rest = bytes ++ after ∧ bytes ≠ [] ∧
    (t.kind = .string ∧ bytes = 34 :: t.text ++ [34] ∨ bytes = t.text) ∧
      outside .plain (ch :: rest) = kept ++ outside .plain after ∧ (∀ b ∈ kept, b ≠ 0x85 ∧ b ≠ 0xA0) ∧
      (ValidUTF8 after ∧ (t.kind = .identifier → ValidUTF8 t.text) ∨ Torn t after) := by
  obtain ⟨hp, hc⟩ := nextToken_cases ht
  refine ⟨hp, ?_⟩
  rcases hc with ⟨rfl, hk, hs⟩ | ⟨hk, text, part, rfl⟩ | ⟨hc, ⟨bytes, rfl, hb⟩, text⟩
  · obtain ⟨rfl, out⟩ := scanOverrideString_spec hs
    rw [if_neg Bool.false_ne_true] at out
    have hq : encode cs = (34 :: t.text) ++ 34 :: after := h
    obtain ⟨ds, hd⟩ := (encode_split hq (by simp; decide)).2
    have hd : encode ds = encode ['"'] ++ after := hd.symm
    refine ⟨34 :: t.text ++ [34], [34], by simp, by simp, .inl ⟨hk, rfl⟩, ?_, by simp, .inl ⟨?_, by simp [hk]⟩⟩
    · rw [outside, if_neg hh, if_pos rfl, out]
      rfl
    · exact encode_suffix hd
  · have hsp : ch :: rest = t.text ++ rest.dropWhile isOverrideIdentifierPart := by
      rw [text, cons_append, takeWhile_append_dropWhile]
    have hta := fun b => (byte_classes b).2.2.2
    have hpa : ∀ b ∈ t.text, isOverrideIdentifierPart b = true := by
      rw [text]
      exact forall_mem_cons.mpr ⟨part, all_eq_true.mp all_takeWhile⟩
    refine ⟨t.text, t.text, hsp, by simp [text], .inr rfl, ?_, fun b mem => (hta b (hpa b mem)).2, ?_⟩
    · rw [hsp, outside_append fun b mem => (hta b (hpa b mem)).1]
    · rw [hsp] at h
      generalize ha : rest.dropWhile isOverrideIdentifierPart = after at h hm
      cases after with
      | nil =>
        obtain ⟨own, hv⟩ := encode_split h nofun
        exact .inl ⟨hv, fun _ => own⟩
      | cons b s =>
        have stop : isOverrideIdentifierPart b = false := by
          have := head?_dropWhile_not isOverrideIdentifierPart rest
          rw [ha] at this
          simpa using this
        by_cases hl : 128 ≤ b
        · refine .inr ⟨hk, ?_, by simpa using lexFrom_inner hm hl stop⟩
          rintro ⟨ds, own⟩
          rw [own] at h
          obtain ⟨_, hv⟩ := encode_suffix h
          have hf := first_of_encode hv.symm
          rcases lexFrom_inner hm hl stop with rfl | rfl
          · exact absurd hf (by decide)
          · exact absurd hf (by decide)
        · obtain ⟨own, hv⟩ := encode_split h (by simpa using (space_byte b).1 hl)
          exact .inl ⟨hv, fun _ => own⟩
  · have own : t.text = ch :: bytes := (append_cancel_right (text : (ch :: bytes) ++ after = t.text ++ after)).symm
    have all : ∀ b ∈ ch :: bytes, ordinary b = true := forall_mem_cons.mpr ⟨hc, hb⟩
    have hta := fun b => (byte_classes b).2.2.1
    have has := encode_ascii fun b mem => (hta b (all b mem)).1
    refine ⟨ch :: bytes, ch :: bytes, rfl, by simp, .inr own.symm, outside_append (fun b mem => (hta b (all b mem)).2.1) after,
      fun b mem => (hta b (all b mem)).2.2, .inl ⟨?_, fun _ => ⟨_, own.trans has.symm⟩⟩⟩
    have hs : encode cs = (ch :: bytes) ++ after := h
    rw [← has] at hs
    exact encode_suffix hs

theorem space_spec {ch : UInt8} {rest : List UInt8} (h : encode cs = ch :: rest) (hsp : isSpace ch = true) :
    encode [ofUInt8 ch] = [ch] ∧ whiteSpace
    (ofUInt8 ch) = true ∧ ch ≠ 34 ∧ ch ≠ 35 ∧ ch ≠ 0x85 ∧ ch ≠ 0xA0 ∧ ValidUTF8 rest := by
  obtain ⟨own, hw, hq, hh, hx, hy⟩ := (space_byte ch).2 hsp (first_of_encode h)
  have hs : encode cs = [ch] ++ rest := h
  rw [← own] at hs
  exact ⟨own, hw, hq, hh, hx, hy, encode_suffix hs⟩

def Sound (tokens : List Token) : Prop := ∀ t ∈ tokens, t.kind = .identifier → ValidUTF8 t.text

def Plain (source : List UInt8) : Prop := ∀ b ∈ outside .plain source, b ≠ 0x85 ∧ b ≠ 0xA0

theorem plain_append {kept s after : List UInt8} (out : outside .plain s = kept ++ outside .plain after)
    (hk : ∀ b ∈ kept, b ≠ 0x85 ∧ b ≠ 0xA0) : Plain s ↔ Plain after := by
  unfold Plain
  rw [out, forall_mem_append]
  exact and_iff_right hk

theorem lexFrom_spec (h : lexFrom fuel pos (encode cs) = .ok tokens) :
    (Plain (encode cs) → Covered pos (encode cs) tokens ∧ Sound tokens) ∧ (Sound tokens → Plain (encode cs)) := by
  induction fuel generalizing pos cs tokens with
  | zero =>
    generalize encode cs = source at h ⊢
    cases source with
    | nil =>
      cases h
      exact ⟨fun _ => ⟨.eof, by simp [Sound]⟩, fun _ => nofun⟩
    | cons => cases h
  | succ fuel ih =>
    generalize hs : encode cs = source at h ⊢
    cases source with
    | nil =>
      cases h
      exact ⟨fun _ => ⟨.eof, by simp [Sound]⟩, fun _ => nofun⟩
    | cons ch rest =>
      rw [lexFrom] at h
      split at h
      next hsp =>
        obtain ⟨own, hw, hq, hh, hx, hy, ds, rfl⟩ := space_spec hs hsp
        have out : outside .plain (ch :: encode ds) = [ch] ++ outside .plain (encode ds) := by
          rw [outside, if_neg hh, if_neg hq]
          rfl
        rw [plain_append out (by simpa using ⟨hx, hy⟩)]
        obtain ⟨hf, back⟩ := ih h
        refine ⟨fun hp => ?_, back⟩
        obtain ⟨hc, hso⟩ := hf hp
        have := Covered.space (ofUInt8 ch) hw (by rw [own]; exact hc)
        rw [own] at this
        exact ⟨this, hso⟩
      · split at h
        next hh =>
          cases h
          subst hh
          exact ⟨fun _ => ⟨.comment rest, by simp [Sound]⟩, fun _ => nofun⟩
        next hh =>
          cases ht : nextToken pos ch rest with
          | error => simp [ht] at h; cases h
          | ok x =>
            obtain ⟨t, after⟩ := x
            simp only [ht] at h
            obtain ⟨more, hm, eq⟩ := map_eq_ok h
            subst eq
            obtain ⟨rfl, bytes, kept, split, _, own, out, hk, hv⟩ := nextToken_spec hs hh ht hm
            have hn : rest.length + 1 - after.length = bytes.length := by
              have := congrArg length split
              simp only [length_cons, length_append] at this
              omega
            rw [hn] at hm
            rw [plain_append out hk]
            rcases hv with ⟨⟨ds, rfl⟩, hva⟩ | ⟨kind, torn, head⟩
            · obtain ⟨hf, back⟩ := ih hm
              refine ⟨fun hp => ?_, fun hso => back fun t mem => hso t (mem_cons_of_mem _ mem)⟩
              obtain ⟨hc, hso⟩ := hf hp
              rw [split]
              exact ⟨.token t own hc, forall_mem_cons.mpr ⟨hva, hso⟩⟩
            · refine ⟨fun hp => ?_, fun hso => absurd (hso t mem_cons_self kind) torn⟩
              obtain ⟨b, s, rfl⟩ : ∃ b s, after = b :: s := by
                rcases head with head | head <;> exact ⟨_, _, (head?_eq_some_iff.mp head).choose_spec⟩
              have hb : b = 0x85 ∨ b = 0xA0 := by simpa using head
              have := hp b (by rcases hb with rfl | rfl <;> simp [outside])
              rcases hb with rfl | rfl <;> simp at this

/-- An accepted source of valid UTF-8 is covered by its tokens, and its identifiers are valid UTF-8, exactly if no byte
outside strings and comments is one of the spaces that are not ASCII. -/
theorem lex_covered_iff (cs : List Char) {tokens : List Token} (accepted : lexOverrideExpr (encode cs) = .ok tokens) :
    (Covered 0 (encode cs) tokens ∧ ∀ t ∈ tokens, t.kind = .identifier → ValidUTF8 t.text) ↔
      ∀ b ∈ outside .plain (encode cs), b ≠ 0x85 ∧ b ≠ 0xA0 := by
  obtain ⟨hf, hb⟩ := lexFrom_spec accepted
  exact ⟨fun h => hb h.2, hf⟩

/-- The field `.ê`: both bytes of the letter are letters. -/
theorem lex_covered_iff_circumflex :
    lexOverrideExpr (encode ['.', 'ê']) = .ok [⟨.dot, [46], 0⟩, ⟨.identifier, [0xC3, 0xAA], 1⟩, ⟨.eof, [], 3⟩] ∧
    Covered 0 (encode ['.', 'ê']) [⟨.dot, [46], 0⟩, ⟨.identifier, [0xC3, 0xAA], 1⟩, ⟨.eof, [], 3⟩] := by
  have hl : lexOverrideExpr (encode ['.', 'ê']) = .ok [⟨.dot, [46], 0⟩, ⟨.identifier, [0xC3, 0xAA], 1⟩, ⟨.eof, [], 3⟩] := by
    decide +kernel
  exact ⟨hl, ((lex_covered_iff ['.', 'ê'] hl).mpr (by decide +kernel)).1⟩

/-- The field `.à`: its second byte is taken for a space, and the name of the field is its first byte. -/
theorem lex_tears_letter : lexOverrideExpr (encode ['.', 'à']) = .ok [⟨.dot, [46], 0⟩, ⟨.identifier, [0xC3], 1⟩, ⟨.eof, [], 3⟩] ∧
    ¬ ValidUTF8 [0xC3] := by
  refine ⟨by decide +kernel, fun ⟨cs, h⟩ => ?_⟩
  have : encode ['à'] = encode cs ++ [0xA0] := by rw [← h]; decide
  obtain ⟨ds, hd⟩ := encode_suffix this
  exact absurd (first_of_encode hd.symm) (by decide)

end Lexing

end AsterCore.Override
