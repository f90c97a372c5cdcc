import KeyHeat.Json.Fault

/-!
# Reading JSON

A reader takes what it expects off the front of a text and gives back the rest, so the first
fault in the order of the text is the one reported. The readers here are those of single
characters, strings and numbers, of whole values, and of values that are skipped; those of
records and lists follow in their own module.

Values may be nested up to a limit, skipped values without one.
-/

namespace KeyHeat.JsonReader

/-- The rest of a text. -/
abbrev Rest := List Char

def malformed {α : Type} : Except JsonFault α := .error .malformed

/-- How deeply arrays and objects may be nested. -/
def nestingLimit : Nat := 127

/-- What a reader may still use up. -/
structure Limits where
  /-- Further levels of nesting. -/
  depth : Nat
  /-- Steps of a loop; enough for the whole text, so that none stops for want of them. -/
  steps : Nat

/-- The limits for a text of the given length. A step may take no character, but not two steps
in a row. -/
def Limits.ofLength (length : Nat) : Limits := ⟨nestingLimit, 2 * length + 1⟩

/-! ## Characters -/

def isBlank (c : Char) : Bool := c == ' ' || c == '\n' || c == '\t' || c == '\r'

def skipBlanks (cs : List Char) : List Char := cs.dropWhile isBlank

/-- Takes the rest of a literal. -/
def literal (rest : String) (cs : List Char) : Except JsonFault Rest :=
  if rest.toList.isPrefixOf cs then .ok (cs.drop rest.length) else malformed

/-- Takes `c` after any blanks. -/
def expect (c : Char) (cs : List Char) : Except JsonFault Rest :=
  match skipBlanks cs with
  | d :: rest => if d = c then .ok rest else malformed
  | [] => malformed

def hexDigit? (c : Char) : Option Nat :=
  if '0' ≤ c ∧ c ≤ '9' then some (c.toNat - '0'.toNat)
  else if 'a' ≤ c ∧ c ≤ 'f' then some (c.toNat - 'a'.toNat + 10)
  else if 'A' ≤ c ∧ c ≤ 'F' then some (c.toNat - 'A'.toNat + 10)
  else none

/-- The number that four hexadecimal digits stand for. -/
def hexCode? (a b c d : Char) : Option Nat := do
  let a ← hexDigit? a
  let b ← hexDigit? b
  let c ← hexDigit? c
  let d ← hexDigit? d
  pure (((a * 16 + b) * 16 + c) * 16 + d)

/-! ## Strings -/

/-- The character of a single-letter escape. -/
def letterEscape? : Char → Option Char
  | '"' => some '"'
  | '\\' => some '\\'
  | '/' => some '/'
  | 'b' => some '\x08'
  | 'f' => some '\x0c'
  | 'n' => some '\n'
  | 'r' => some '\r'
  | 't' => some '\t'
  | _ => none

def isLeadSurrogate (n : Nat) : Bool := 0xd800 ≤ n && n ≤ 0xdbff

def isTrailSurrogate (n : Nat) : Bool := 0xdc00 ≤ n && n ≤ 0xdfff

/-- The character of a lead and a trail surrogate. -/
def surrogatePair (lead trail : Nat) : Char :=
  Char.ofNat (0x10000 + (lead - 0xd800) * 0x400 + (trail - 0xdc00))

/-- The rest of a string whose opening quote has been taken, after the characters `done`, last
first. The escape of a lead surrogate must be followed by that of a trail surrogate, and neither
may stand alone. -/
def stringAfter (done : List Char) : List Char → Except JsonFault (String × Rest)
  | '"' :: rest => .ok (String.ofList done.reverse, rest)
  | '\\' :: 'u' :: a :: b :: c :: d :: rest =>
    match hexCode? a b c d with
    | none => malformed
    | some n =>
      if isLeadSurrogate n then
        match rest with
        | '\\' :: 'u' :: a :: b :: c :: d :: rest =>
          match hexCode? a b c d with
          | none => malformed
          | some m =>
            if isTrailSurrogate m then stringAfter (surrogatePair n m :: done) rest
            else malformed
        | _ => malformed
      else if isTrailSurrogate n then malformed
      else stringAfter (Char.ofNat n :: done) rest
  | '\\' :: letter :: rest =>
    match letterEscape? letter with
    | some c => stringAfter (c :: done) rest
    | none => malformed
  | ['\\'] | [] => malformed
  | c :: rest => if c.toNat < 0x20 then malformed else stringAfter (c :: done) rest

/-- The rest of a string whose opening quote has been taken. -/
def stringTail (cs : List Char) : Except JsonFault (String × Rest) := stringAfter [] cs

/-- Skips the rest of a string whose opening quote has been taken. Numeric escapes need their
digits, but surrogates are not looked at. -/
def skipString : List Char → Except JsonFault Rest
  | '"' :: rest => .ok rest
  | '\\' :: 'u' :: a :: b :: c :: d :: rest =>
    if (hexCode? a b c d).isSome then skipString rest else malformed
  | '\\' :: letter :: rest =>
    if (letterEscape? letter).isSome then skipString rest else malformed
  | ['\\'] | [] => malformed
  | c :: rest => if c.toNat < 0x20 then malformed else skipString rest

/-! ## Numbers

Up to 64 bits of the digits are kept as a whole number, which is then scaled by one power of ten;
digits beyond are counted before the point and dropped after it. -/

def isDigit (c : Char) : Bool := '0' ≤ c && c ≤ '9'

def digitValue (c : Char) : Nat := c.toNat - '0'.toNat

def digits (cs : List Char) : List Char := cs.takeWhile isDigit

def afterDigits (cs : List Char) : List Char := cs.dropWhile isDigit

/-- The largest significand that is kept. -/
def significandMax : Nat := Number.wordLimit - 1

/-- The largest exponent that is kept, one below two to the power 31. -/
def exponentMax : Nat := 2147483647

/-- Appends digits to `n` as long as the result is at most `bound`; the digits that are left. -/
def accumulate (bound n : Nat) : List Char → Nat × List Char
  | [] => (n, [])
  | c :: rest =>
    let next := n * 10 + digitValue c
    if next ≤ bound then accumulate bound next rest else (n, c :: rest)

def signed (negative : Bool) (x : Float) : Float := if negative then -x else x

/-- The power of ten with an exponent up to 308, as a double. -/
def powerOfTen (exponent : Nat) : Float := Float.ofScientific 1 false exponent

/-- Divides `x` by the power of ten, in steps of `10 ^ 308` until it fits or `x` is zero. -/
def scaleDown (x : Float) (exponent : Nat) : Float :=
  if exponent ≤ 308 then x / powerOfTen exponent
  else if x == 0 then x
  else scaleDown (x / powerOfTen 308) (exponent - 308)
termination_by exponent

/-- The double `significand * 10 ^ exponent`, computed by one multiplication or by divisions. -/
def scaled (negative : Bool) (significand : Nat) (exponent : Int) : Except JsonFault Float :=
  let x := Number.ofCount significand
  if exponent < 0 then
    .ok (signed negative (scaleDown x exponent.natAbs))
  else if exponent.toNat ≤ 308 then
    let y := x * powerOfTen exponent.toNat
    if y.isInf then malformed else .ok (signed negative y)
  else if x == 0 then
    .ok (signed negative x)
  else
    malformed

/-- The exponent part, whose mark has been taken. -/
def exponentPart (negative : Bool) (significand : Nat) (start : Int) (cs : List Char) :
    Except JsonFault (Float × Rest) := do
  let (down, cs) := match cs with
    | '+' :: rest => (false, rest)
    | '-' :: rest => (true, rest)
    | _ => (false, cs)
  if (digits cs).isEmpty then
    malformed
  else
    match accumulate exponentMax 0 (digits cs) with
    | (n, []) =>
      let x ← scaled negative significand (if down then start - n else start + n)
      pure (x, afterDigits cs)
    | (_, _ :: _) =>
      if significand ≠ 0 ∧ !down then malformed
      else pure (signed negative 0, afterDigits cs)

/-- What follows the digits kept so far: an exponent part, or nothing more of the number. -/
def scalePart (negative : Bool) (significand : Nat) (exponent : Int) (cs : List Char) :
    Except JsonFault (Float × Rest) :=
  match cs with
  | c :: rest =>
    if c = 'e' ∨ c = 'E' then exponentPart negative significand exponent rest
    else (scaled negative significand exponent).map (·, cs)
  | [] => (scaled negative significand exponent).map (·, cs)

/-- The decimal places, whose point has been taken. -/
def fractionPart (negative : Bool) (significand : Nat) (exponent : Int) (cs : List Char) :
    Except JsonFault (Float × Rest) :=
  let places := digits cs
  if places.isEmpty then
    malformed
  else
    let (significand, dropped) := accumulate significandMax significand places
    let kept := places.length - dropped.length
    scalePart negative significand (exponent - kept) (afterDigits cs)

/-- What follows whole digits that are kept only in part, or that a point or an exponent
follows. -/
def doublePart (negative : Bool) (significand : Nat) (exponent : Int) (cs : List Char) :
    Except JsonFault (Float × Rest) :=
  match cs with
  | '.' :: rest => fractionPart negative significand exponent rest
  | _ => scalePart negative significand exponent cs

/-- Whole digits without a leading zero, and the rest of the text. -/
def wholeDigits (cs : List Char) : Except JsonFault (List Char × Rest) :=
  match digits cs with
  | [] => malformed
  | '0' :: _ :: _ => malformed
  | whole => .ok (whole, afterDigits cs)

/-- Whether a whole number goes on as a double. -/
def continuesAsDouble : List Char → Bool
  | c :: _ => c == '.' || c == 'e' || c == 'E'
  | [] => false

/-- The largest magnitude of a negative whole number, two to the power 63. -/
def negativeMax : Nat := 9223372036854775808

/-- A number after its sign. A negative zero is a double. -/
def unsignedNumber (negative : Bool) (cs : List Char) : Except JsonFault (JsonNumber × Rest) := do
  let (whole, rest) ← wholeDigits cs
  let (significand, dropped) := accumulate significandMax 0 whole
  if !dropped.isEmpty ∨ continuesAsDouble rest then
    let (x, rest) ← doublePart negative significand dropped.length rest
    pure (.double x, rest)
  else if !negative then
    pure (.natural significand, rest)
  else if 0 < significand ∧ significand ≤ negativeMax then
    pure (.negative significand, rest)
  else
    pure (.double (-Number.ofCount significand), rest)

def number : List Char → Except JsonFault (JsonNumber × Rest)
  | '-' :: rest => unsignedNumber true rest
  | cs => unsignedNumber false cs

/-- Skips a number, whatever its range. -/
def skipNumber (cs : List Char) : Except JsonFault Rest := do
  let cs := match cs with
    | '-' :: rest => rest
    | _ => cs
  let (_, rest) ← wholeDigits cs
  let rest ← match rest with
    | '.' :: places => if (digits places).isEmpty then malformed else pure (afterDigits places)
    | _ => pure rest
  match rest with
  | c :: power =>
    if c = 'e' ∨ c = 'E' then
      let power := match power with
        | '+' :: power | '-' :: power => power
        | _ => power
      if (digits power).isEmpty then malformed else pure (afterDigits power)
    else
      pure rest
  | [] => pure rest

/-! ## Sequences and maps -/

/-- Moves to the next element of an array, if there is one: past the comma, which stands before
every element but the first. The closing bracket is left in place. -/
def nextElement? (first : Bool) (cs : List Char) : Except JsonFault (Option (List Char)) :=
  match skipBlanks cs with
  | ']' :: _ => .ok none
  | ',' :: rest =>
    if first then
      .ok (some (',' :: rest))
    else
      match skipBlanks rest with
      | ']' :: _ | [] => malformed
      | cs => .ok (some cs)
  | [] => malformed
  | cs => if first then .ok (some cs) else malformed

/-- Moves to the next member of an object, if there is one, and reads its name. The closing brace
is left in place. -/
def nextName? (first : Bool) (cs : List Char) : Except JsonFault (Option (String × List Char)) :=
  match skipBlanks cs with
  | '\x7d' :: _ => .ok none
  | ',' :: rest => if first then malformed else name (skipBlanks rest)
  | cs => if first then name cs else malformed
where
  name : List Char → Except JsonFault (Option (String × List Char))
    | '"' :: rest => some <$> stringTail rest
    | _ => malformed

/-! ## Values -/

mutual

/-- A value with at most `depth` levels of nesting. -/
def valueWithin (depth : Nat) (cs : List Char) : Nat → Except JsonFault (JsonValue × Rest)
  | 0 => malformed
  | fuel + 1 =>
    match skipBlanks cs with
    | 'n' :: rest => (literal "ull" rest).map (.null, ·)
    | 't' :: rest => (literal "rue" rest).map (.bool true, ·)
    | 'f' :: rest => (literal "alse" rest).map (.bool false, ·)
    | '"' :: rest => (stringTail rest).map fun (s, rest) ↦ (.string s, rest)
    | '[' :: rest =>
      match depth with
      | 0 => malformed
      | depth + 1 => elementsWithin depth true [] rest fuel
    | '\x7b' :: rest =>
      match depth with
      | 0 => malformed
      | depth + 1 => membersWithin depth true [] rest fuel
    | cs => (number cs).map fun (n, rest) ↦ (.number n, rest)

def elementsWithin (depth : Nat) (first : Bool) (done : List JsonValue) (cs : List Char) :
    Nat → Except JsonFault (JsonValue × Rest)
  | 0 => malformed
  | fuel + 1 => do
    match ← nextElement? first cs with
    | none => (expect ']' cs).map (.array done.reverse, ·)
    | some cs =>
      let (value, rest) ← valueWithin depth cs fuel
      elementsWithin depth false (value :: done) rest fuel

def membersWithin (depth : Nat) (first : Bool) (done : List (String × JsonValue))
    (cs : List Char) : Nat → Except JsonFault (JsonValue × Rest)
  | 0 => malformed
  | fuel + 1 => do
    match ← nextName? first cs with
    | none => (expect '\x7d' cs).map (.object done, ·)
    | some (name, rest) =>
      let (value, rest) ← valueWithin depth (← expect ':' rest) fuel
      membersWithin depth false (JsonValue.setMember name value done) rest fuel

end

/-- A value. -/
def value (limits : Limits) (cs : List Char) : Except JsonFault (JsonValue × Rest) :=
  valueWithin limits.depth cs limits.steps

/-! ## Skipped values -/

/-- Skips a value that is neither an array nor an object. -/
def skipScalar : List Char → Except JsonFault Rest
  | 'n' :: rest => literal "ull" rest
  | 't' :: rest => literal "rue" rest
  | 'f' :: rest => literal "alse" rest
  | '"' :: rest => skipString rest
  | cs => skipNumber cs

/-- Skips the name of a member, with its quotes, and the colon. -/
def skipName (cs : List Char) : Except JsonFault Rest := do
  expect ':' (← skipString (← expect '"' cs))

/-- Skips a value, then what remains of the arrays and objects whose closing characters are
`closers`, innermost first. -/
def skipWithin (closers : List Char) (cs : List Char) : Nat → Except JsonFault Rest
  | 0 => malformed
  | fuel + 1 =>
    match skipBlanks cs with
    | '[' :: rest =>
      match skipBlanks rest with
      | ']' :: rest => close closers rest fuel
      | rest => skipWithin (']' :: closers) rest fuel
    | '\x7b' :: rest =>
      match skipBlanks rest with
      | '\x7d' :: rest => close closers rest fuel
      | rest => do skipWithin ('\x7d' :: closers) (← skipName rest) fuel
    | cs => do close closers (← skipScalar cs) fuel
where
  /-- After a value: closes brackets until a comma calls for the next value. -/
  close (closers : List Char) (cs : List Char) (fuel : Nat) : Except JsonFault Rest :=
    match closers with
    | [] => .ok cs
    | closer :: closers =>
      match skipBlanks cs, fuel with
      | ',' :: rest, fuel + 1 =>
        if closer = ']' then skipWithin (closer :: closers) rest fuel
        else do skipWithin (closer :: closers) (← skipName rest) fuel
      | c :: rest, fuel + 1 => if c = closer then close closers rest fuel else malformed
      | _, _ => malformed

/-- Skips a value, however deeply it is nested. -/
def skipValue (limits : Limits) (cs : List Char) : Except JsonFault Rest :=
  skipWithin [] cs limits.steps

/-! ## Whole texts -/

/-- Runs a reader on a whole text, after which only blanks may follow. -/
def whole {α : Type} (read : Limits → List Char → Except JsonFault (α × Rest)) (text : String) :
    Except JsonFault α := do
  let cs := text.toList
  let (a, rest) ← read (.ofLength cs.length) cs
  if (skipBlanks rest).isEmpty then pure a else malformed

/-- The value that a text holds. -/
def readValue (text : String) : Except JsonFault JsonValue := whole value text

end KeyHeat.JsonReader
