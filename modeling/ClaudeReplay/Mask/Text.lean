import ClaudeReplay.Lib.Cut
import ClaudeReplay.Lib.Escapes

/-!
# ClaudeReplay.Mask.Text

The masker of secret shapes: provider tokens, JSON web tokens, bearer credentials, URL
passwords and the bodies of private keys are starred in place, byte for byte. It works
on raw bytes, which may be a plain text or the contents of a JSON string.

A matcher is asked at a position. It reads forward from there, and backward only to see
that a word starts there, so it is given the bytes before the position, last first, and
the bytes from it on.
-/

namespace ClaudeReplay.Mask

open Lib (quote backslash letterU)

/-! ## bytes -/

/-- The bytes of a text. -/
def ascii (s : String) : List UInt8 := s.toUTF8.data.toList

def isUpper (b : UInt8) : Bool := 0x41 ≤ b && b ≤ 0x5A
def isLower (b : UInt8) : Bool := 0x61 ≤ b && b ≤ 0x7A
def isDigit (b : UInt8) : Bool := 0x30 ≤ b && b ≤ 0x39

/-- `is_ascii_alphanumeric` -/
def alnum (b : UInt8) : Bool := isUpper b || isLower b || isDigit b

/-- `WORD`, which is `key_char` too. -/
def keyChar (b : UInt8) : Bool := alnum b || b == 0x5F || b == 0x2D

def upperDigit (b : UInt8) : Bool := isUpper b || isDigit b

def alnumUnderscore (b : UInt8) : Bool := alnum b || b == 0x5F

/-- `is_ascii_hexdigit` -/
def isHex (b : UInt8) : Bool := isDigit b || (0x61 ≤ b && b ≤ 0x66) || (0x41 ≤ b && b ≤ 0x46)

/-- `to_ascii_lowercase` -/
def lower (b : UInt8) : UInt8 := if isUpper b then b + 0x20 else b

/-- The star that stands for a masked byte. -/
def starByte : UInt8 := 0x2A

/-! ## escapes and word boundaries -/

/-- A JSON `\uXXXX` escape starts here. -/
def unicodeEscapeAt : List UInt8 → Bool
  | b :: u :: h₁ :: h₂ :: h₃ :: h₄ :: _ =>
    b == backslash && u == letterU && isHex h₁ && isHex h₂ && isHex h₃ && isHex h₄
  | _ => false

/-- A JSON `\uXXXX` escape ends right before the position. -/
def unicodeEscapeBefore : List UInt8 → Bool
  | h₄ :: h₃ :: h₂ :: h₁ :: u :: b :: _ =>
    b == backslash && u == letterU && isHex h₁ && isHex h₂ && isHex h₃ && isHex h₄
  | _ => false

/-- The text `s` ends right before the position, up to case. -/
def endsLower (s : String) (before : List UInt8) : Bool :=
  (ascii s).reverse.isPrefixOf (before.map lower)

/-- The text `s` ends right before the position. -/
def endsWith (s : String) (before : List UInt8) : Bool := (ascii s).reverse.isPrefixOf before

/-- An escape ends right before the position. -/
def afterEscape (before : List UInt8) : Bool :=
  (match before with
    | c :: b :: _ => b == backslash && (ascii "ntrbf").contains c
    | _ => false) || unicodeEscapeBefore before

/-- An ESC ends right before the position, in any of its spellings. -/
def escEndsAt (before : List UInt8) : Bool :=
  before.head? == some 0x1B ||
  (unicodeEscapeBefore before && endsLower "001b" before) ||
  ((before.drop 3).head? == some backslash && (endsLower "x1b" before || endsWith "033" before)) ||
  ((before.drop 4).head? == some backslash && endsWith "0033" before) ||
  ((before.drop 1).head? == some backslash &&
    (before.head? == some 0x65 || before.head? == some 0x45))

/-- A terminal control sequence ends right before the position. -/
def afterTerminalCode (before : List UInt8) : Bool :=
  match before with
  | last :: rest =>
    if before.length < 3 || last == backslash then false
    else
      (0x40 ≤ last && last ≤ 0x7E &&
        (match rest.dropWhile fun b => 0x20 ≤ b && b ≤ 0x3F with
          | b :: esc => b == 0x5B && escEndsAt esc
          | [] => false)) ||
      (0x30 ≤ last && last ≤ 0x7E && last != 0x5B &&
        escEndsAt (rest.dropWhile fun b => 0x20 ≤ b && b ≤ 0x2F))
  | [] => false

/-- The byte before the position ends a word: none, a non-word byte, an escape, a terminal
code. -/
def boundary (before : List UInt8) : Bool :=
  match before with
  | [] => true
  | b :: _ => !keyChar b || afterEscape before || afterTerminalCode before

/-- A word starts at the position. -/
def startsWord (before : List UInt8) : Bool :=
  boundary before ||
    (before.head? == some 0x2D && boundary (before.dropWhile fun b => b == 0x2D))

/-! ## the matchers -/

/-- A token rule: a literal prefix, the bytes the token may carry after it, and how many at
least, and at most when the shape is fixed. -/
structure TokenRule where
  start : List UInt8
  body : UInt8 → Bool
  min : Nat
  max : Option Nat

/-- The provider keys, by their published prefixes. -/
def tokens : List TokenRule :=
  [⟨ascii "sk-ant-", keyChar, 20, none⟩, ⟨ascii "sk-proj-", keyChar, 20, none⟩,
    ⟨ascii "sk-", keyChar, 20, none⟩, ⟨ascii "github_pat_", alnumUnderscore, 40, none⟩,
    ⟨ascii "ghp_", alnum, 30, none⟩, ⟨ascii "gho_", alnum, 30, none⟩,
    ⟨ascii "ghu_", alnum, 30, none⟩, ⟨ascii "ghs_", alnum, 30, none⟩,
    ⟨ascii "ghr_", alnum, 30, none⟩, ⟨ascii "glpat-", keyChar, 20, none⟩,
    ⟨ascii "xoxb-", keyChar, 10, none⟩, ⟨ascii "xoxp-", keyChar, 10, none⟩,
    ⟨ascii "xoxa-", keyChar, 10, none⟩, ⟨ascii "xoxs-", keyChar, 10, none⟩,
    ⟨ascii "AKIA", upperDigit, 16, some 16⟩, ⟨ascii "ASIA", upperDigit, 16, some 16⟩,
    ⟨ascii "AIza", keyChar, 35, some 35⟩]

/-- How many bytes of a list satisfy `p`, from its start on. -/
def span (p : UInt8 → Bool) (bs : List UInt8) : Nat := (bs.takeWhile p).length

/-- The length of the rule's token, if one starts here. -/
def TokenRule.endAt (rule : TokenRule) (before after : List UInt8) : Option Nat :=
  if !rule.start.isPrefixOf after || !startsWord before then none
  else
    let rest := after.drop rule.start.length
    let n := match rule.max with
      | none => span rule.body rest
      | some max => span rule.body (rest.take max)
    -- a fixed-length shape that runs on is some other word
    let runsOn := rule.max.isSome && (rest.drop n).head?.any rule.body
    if rule.min ≤ n && !runsOn then some (rule.start.length + n) else none

/-- `token_at`: the length of the provider token that starts here. -/
def tokenAt (before after : List UInt8) : Option Nat :=
  tokens.findSome? fun rule => rule.endAt before after

/-- `jwt_at`: the length of the JSON web token that starts here. -/
def jwtAt (before after : List UInt8) : Option Nat :=
  if !(ascii "eyJ").isPrefixOf after || !startsWord before then none
  else
    let a := span keyChar after
    if a < 10 || (after.drop a).head? != some 0x2E then none
    else
      let rest := after.drop (a + 1)
      let b := span keyChar rest
      if b < 10 || (rest.drop b).head? != some 0x2E then none
      else
        let c := span keyChar (rest.drop (b + 1))
        if 10 ≤ c then some (a + 1 + b + 1 + c) else none

/-- A byte of a bearer credential. -/
def bearerChar (b : UInt8) : Bool := alnum b || (ascii "._~+/=-").contains b

/-- `bearer_at`: where the credential of a bearer header that starts here stands. -/
def bearerAt (before after : List UInt8) : Option (Nat × Nat) :=
  if !(ascii "bearer ").isPrefixOf (after.map lower) || !startsWord before then none
  else
    let n := span bearerChar (after.drop 7)
    if 20 ≤ n then some (7, 7 + n) else none

/-- The way to `stop` within `left` bytes, past none of `bad`; where it ends is not
necessarily a `stop`. -/
def scanTo (stop : UInt8) (bad : List UInt8) : Nat → List UInt8 → Option Nat
  | 0, _ => some 0
  | _, [] => some 0
  | left + 1, b :: bs =>
    if b == stop then some 0
    else if bad.contains b then none
    else (scanTo stop bad left bs).map (· + 1)

/-- `url_password_at`: where the password of a URL whose `://` starts here stands. -/
def urlPasswordAt (after : List UInt8) : Option (Nat × Nat) :=
  if !(ascii "://").isPrefixOf after then none
  else
    match scanTo 0x3A [0x2F, 0x40, quote, backslash, 0x20, 0x0A] 65 (after.drop 3) with
    | none => none
    | some user =>
      if user == 0 || (after.drop (3 + user)).head? != some 0x3A then none
      else
        let rest := after.drop (3 + user + 1)
        match scanTo 0x40 [0x2F, quote, backslash, 0x20, 0x0A] 129 rest with
        | none => none
        | some password =>
          if 0 < password && (rest.drop password).head? == some 0x40 then
            some (3 + user + 1, 3 + user + 1 + password)
          else none

/-! ## starring -/

/-- Star the first `n` bytes, leaving every escape whole and every byte outside ASCII; of an
escape that is being passed, `skip` bytes are left. -/
def star : (skip n : Nat) → List UInt8 → List UInt8
  | _, 0, bs => bs
  | _, _, [] => []
  | skip + 1, n + 1, b :: bs => b :: star skip n bs
  | 0, n + 1, b :: bs =>
    if b == backslash then b :: star (if unicodeEscapeAt (b :: bs) then 5 else 1) n bs
    else if 0x80 ≤ b then b :: star 0 n bs
    else starByte :: star 0 n bs

/-- The header and the footer of a private key. -/
def keyBegin : List UInt8 := ascii "-----BEGIN "
def keyHeader : List UInt8 := ascii "PRIVATE KEY-----"
def keyEnd : List UInt8 := ascii "-----END "

/-- Star the body of every private key; how many there were. The first argument bounds the
number of headers and is the length of the text. -/
def maskPrivateKeys : Nat → List UInt8 → List UInt8 × Nat
  | 0, bs => (bs, 0)
  | fuel + 1, bs =>
    match Lib.splitAt? keyBegin bs with
    | none => (bs, 0)
    | some (text, rest) =>
      let next := maskPrivateKeys fuel rest
      -- the header is one short line: it is looked for in a window alone
      match Lib.splitAt? keyHeader ((keyBegin ++ rest).take (64 + keyHeader.length)) with
      | none => (text ++ keyBegin ++ next.1, next.2)
      | some (header, _) =>
        if header.contains 0x0A then (text ++ keyBegin ++ next.1, next.2)
        else
          let body := (keyBegin ++ rest).drop (header.length + keyHeader.length)
          match Lib.splitAt? keyEnd body with
          | none => (bs, 0)
          | some (key, after) =>
            let next := maskPrivateKeys fuel after
            (text ++ header ++ keyHeader ++ (star 0 key.length body).take key.length ++ keyEnd ++
              next.1, next.2 + 1)

/-- Whether a secret's shape can start with `b`. -/
def mayStart (b : UInt8) : Bool :=
  tokens.any (fun rule => rule.start.head? == some b) || (ascii "ebB:").contains b

/-- The pass over the text: at each position the first matcher that finds something stars
it, and the pass goes on behind it. The first argument bounds the number of positions. -/
def scan : Nat → (before after : List UInt8) → List UInt8 × Nat
  | 0, before, after => (before.reverse ++ after, 0)
  | _, before, [] => (before.reverse, 0)
  | fuel + 1, before, b :: bs =>
    if !mayStart b then scan fuel (b :: before) bs
    else
      match (tokenAt before (b :: bs)).or (jwtAt before (b :: bs)) with
      | some stop =>
        let starred := star 0 stop (b :: bs)
        let next := scan fuel ((starred.take stop).reverse ++ before) (starred.drop stop)
        (next.1, next.2 + 1)
      | none =>
        match (bearerAt before (b :: bs)).or (urlPasswordAt (b :: bs)) with
        | some (start, stop) =>
          let starred := (b :: bs).take start ++ star 0 (stop - start) ((b :: bs).drop start)
          let next := scan fuel ((starred.take stop).reverse ++ before) (starred.drop stop)
          (next.1, next.2 + 1)
        | none => scan fuel (b :: before) bs

/-- `mask_text_bytes`: mask every secret shape, in place; how many were masked. -/
def maskTextBytes (bytes : List UInt8) : List UInt8 × Nat :=
  let keys := maskPrivateKeys bytes.length bytes
  let secrets := scan keys.1.length [] keys.1
  (secrets.1, keys.2 + secrets.2)

/-! ## JSON -/

/-- Where the string that has been opened ends. -/
def stringEnd : (skip : Bool) → List UInt8 → Nat
  | _, [] => 0
  | true, _ :: bs => 1 + stringEnd false bs
  | false, b :: bs => if b == quote then 0 else 1 + stringEnd (b == backslash) bs

/-- A string that is a `data:` URI or a long unbroken run of base64. -/
def isBlob (s : List UInt8) : Bool :=
  (ascii "data:").isPrefixOf s ||
    (2048 < s.length && s.all fun b => alnum b || (ascii "+/=").contains b)

/-- A string of a JSON document, masked unless it is a blob. -/
def maskString (s : List UInt8) : List UInt8 × Nat := if isBlob s then (s, 0) else maskTextBytes s

/-- `mask_json_bytes`: mask the secrets inside every string of a JSON document or of JSON
lines; how many were masked. The first argument bounds the number of bytes outside strings. -/
def maskJson : Nat → List UInt8 → List UInt8 × Nat
  | 0, body => (body, 0)
  | _, [] => ([], 0)
  | fuel + 1, b :: bs =>
    if b != quote then
      let next := maskJson fuel bs
      (b :: next.1, next.2)
    else
      let n := stringEnd false bs
      let string := maskString (bs.take n)
      match bs.drop n with
      | [] => (b :: string.1, string.2)
      | q :: rest =>
        let next := maskJson fuel rest
        (b :: string.1 ++ q :: next.1, string.2 + next.2)

def maskJsonBytes (body : List UInt8) : List UInt8 × Nat := maskJson body.length body

end ClaudeReplay.Mask
