import ClaudeReplay.Lib.Cut
import ClaudeReplay.Lib.Quoted
import ClaudeReplay.Lib.Value
import ClaudeReplay.Text
import Mathlib.Algebra.Order.Ring.Rat
import Mathlib.Data.Nat.Cast.Order.Ring

/-!
# ClaudeReplay.Codex.Reply

The quotation envelope that the Codex client wraps a prompt in.

The client writes a fixed preamble, the selections as one line of JSON, a closing line, and
what the person typed. `parse` takes a text for that envelope only if the selections, written
out again, are the bytes that were read. So it reads every envelope back (`parse_envelope`),
and every text it accepts is the envelope of what it returns (`envelope_of_parse`).

The JSON reader is a parameter. Of `f64` only what the code asks of a number is kept, with
the shortest decimal that both writers spell (`Doubles`).
-/

namespace ClaudeReplay.Codex.Reply

open Lib

abbrev Text := List Char

/-! ## numbers -/

/-- A positive decimal: its digits, and how many of them the point stands behind. -/
structure Decimal where
  digits : Text
  point : Int
  isDigit : ∀ c ∈ digits, c.isDigit = true

namespace Decimal

/-- `to_string`: no exponent. -/
def plain (d : Decimal) : Text :=
  if d.digits.length ≤ d.point then
    d.digits ++ List.replicate (d.point.toNat - d.digits.length) '0'
  else if 0 < d.point then d.digits.take d.point.toNat ++ '.' :: d.digits.drop d.point.toNat
  else '0' :: '.' :: List.replicate (-d.point).toNat '0' ++ d.digits

/-- `format!("\x7b:e\x7d")`, with `plus` before an exponent that is not negative. -/
def exponent (plus : Text) (d : Decimal) : Text :=
  d.digits.take 1 ++ (if d.digits.length ≤ 1 then [] else '.' :: d.digits.tail) ++
    'e' :: (if 0 < d.point then plus else ['-']) ++ Nat.toDigits 10 (d.point - 1).natAbs

/-- `Number::toString`. -/
def jsNumber (d : Decimal) : Text :=
  if -6 < d.point ∧ d.point ≤ 21 then d.plain else d.exponent ['+']

end Decimal

/-- The numbers of the offsets: how they are read, and their value if they are finite. Rust and
ECMAScript spell a number by the shortest decimal that is read back, which is not worked out
here: the laws say what the check rests on. -/
structure Doubles (F : Type) where
  ofInt : Int → F
  ofDec : String → Option F
  value : F → Option ℚ
  /-- Of a positive number. -/
  shortest : F → Decimal
  /-- Whole numbers below 2^53 are read as they are. -/
  value_ofInt : ∀ n : Nat, n < 2 ^ 53 → value (ofInt n) = some (n : ℚ)
  /-- No shorter decimal is read back as one of them. -/
  plain_nat : ∀ x, ∀ n : Nat, 0 < n → n < 2 ^ 53 → value x = some (n : ℚ) →
    (shortest x).plain = Nat.toDigits 10 n
  /-- These powers of ten are numbers themselves. -/
  point_le : ∀ x q, ∀ k ≤ 22, value x = some q → 0 < q →
    ((shortest x).point ≤ (k : Nat) ↔ q < 10 ^ k)

/-- `Number::toString` of a number that is not negative. -/
def Doubles.jsNumber {F : Type} (d : Doubles F) (x : F) : Text :=
  if d.value x = some 0 then ['0'] else (d.shortest x).jsNumber

/-! ## the client -/

structure Source (N : Type) where
  messageId : Text
  startOffset : N
  endOffset : N

structure Selection (N : Type) where
  text : Text
  /-- Its `annotation`. -/
  comment : Option Text
  source : Option (Source N)

variable {N F : Type}

/-- The key of a field, and the colon behind it. -/
def key (name : String) : Text := '"' :: name.toList ++ ['"', ':']

def heading : Text := "# Response annotations".toList

/-- `PREFIX`. -/
def preamble : Text :=
  ['\n'] ++ heading ++
    ":\nEach item contains text selected from an earlier Codex response and may include".toList ++
    " a user comment. Treat items as Annotation 1, Annotation 2, and so on in array".toList ++
    " order.".toList ++
    " Use every selection as context and address every comment. For every annotation you".toList ++
    " address, include its inline directive `:codex-annotation\x7bindex=\"N\"\x7d`,".toList ++
    " where N".toList ++
    " is its one-based array position (for example,".toList ++
    " `:codex-annotation\x7bindex=\"1\"\x7d`). Do not use unstructured annotation labels.".toList ++
    "\n<response-annotations>\n".toList

def closing : Text := "\n</response-annotations>".toList

/-- The selections of the client: a text, a comment that is not empty, and whole offsets. -/
def Selection.Valid (s : Selection Nat) : Prop :=
  s.text ≠ [] ∧ s.comment ≠ some [] ∧
    ∀ src, s.source = some src →
      src.messageId ≠ [] ∧ src.startOffset < src.endOffset ∧ src.endOffset < 2 ^ 53

/-! ## reading the list -/

/-- The fields of a struct that denies unknown ones: each at most once, and no other. -/
def fieldsIn (names : List String) (fields : List (String × Value)) : Bool :=
  fields.all (fun f => f.1 ∈ names) && decide (fields.map Prod.fst).Nodup

def readText (v : Value) : Option Text := v.asStr.map String.toList

def readOffset (d : Doubles F) : Value → Option F
  | .num n => some (d.ofInt n)
  | .dec digits => d.ofDec digits
  | _ => none

/-- An optional field: missing and `null` are alike. -/
def readOption {α : Type} (read : Value → Option α) (field : Option Value) : Option (Option α) :=
  match field with
  | none | some .null => some none
  | some v => (read v).map some

/-- `Source` from its three values, by name or in order. -/
def Source.read (d : Doubles F) (v : Value) : Option (Source F) :=
  let build (messageId startOffset endOffset : Value) : Option (Source F) := do
    let messageId ← readText messageId
    let startOffset ← readOffset d startOffset
    let endOffset ← readOffset d endOffset
    some ⟨messageId, startOffset, endOffset⟩
  match v with
  | .obj fields => do
    guard (fieldsIn ["messageId", "startOffset", "endOffset"] fields)
    build (← fields.lookup "messageId") (← fields.lookup "startOffset")
      (← fields.lookup "endOffset")
  | .arr [messageId, startOffset, endOffset] => build messageId startOffset endOffset
  | _ => none

/-- `Selection` from its values, by name or in order. -/
def Selection.read (d : Doubles F) (v : Value) : Option (Selection F) :=
  let build (text : Value) (comment source : Option Value) : Option (Selection F) := do
    let text ← readText text
    let comment ← readOption readText comment
    let source ← readOption (Source.read d) source
    some ⟨text, comment, source⟩
  match v with
  | .obj fields => do
    guard (fieldsIn ["text", "annotation", "source"] fields)
    build (← fields.lookup "text") (fields.lookup "annotation") (fields.lookup "source")
  | .arr [text, comment, source] => build text (some comment) (some source)
  | _ => none

/-- `serde_json::from_str::<Vec<Selection>>`, over a reader of JSON text. -/
def readList (d : Doubles F) (parseJson : Text → Option Value) (array : Text) :
    Option (List (Selection F)) :=
  (parseJson array).bind fun v => v.asArray.bind fun items => items.mapM (Selection.read d)

/-! ## the envelope, read -/

/-- The offset as the client would spell it. -/
def number (d : Doubles F) (x : F) : Text :=
  if d.value x = some 0 then ['0']
  else if (d.value x).any (· < 10 ^ 21) then (d.shortest x).plain
  else ((d.shortest x).exponent []).flatMap fun c => if c = 'e' then ['e', '+'] else [c]

/-- The tests that a source must pass. -/
def Source.ok (d : Doubles F) (src : Source F) : Bool :=
  match d.value src.startOffset, d.value src.endOffset with
  | some start, some stop =>
    src.messageId ≠ [] && 0 ≤ start && start.den = 1 && stop.den = 1 && start < stop
  | _, _ => false

/-- The canonical spelling of a selection that passes its tests. -/
def Selection.canonical (d : Doubles F) (s : Selection F) : Option Text :=
  if s.text = [] ∨ s.comment = some [] ∨ s.source.any (!·.ok d) then none
  else some <|
    '\x7b' :: key "text" ++ serdeString s.text ++
      s.comment.elim [] (fun a => ',' :: key "annotation" ++ serdeString a) ++
      s.source.elim [] (fun src => ',' :: key "source" ++ ('\x7b' :: key "messageId" ++
        serdeString src.messageId ++ (',' :: key "startOffset" ++ number d src.startOffset) ++
        (',' :: key "endOffset" ++ number d src.endOffset) ++ ['\x7d'])) ++ ['\x7d']

/-- `ReplyItem`. -/
structure Item where
  quote : Text
  /-- `ReplyResponse::Comment`. -/
  comment : Option Text
  deriving DecidableEq

/-- `ReplyContext`. -/
structure Context where
  version : Nat
  items : List Item
  request : Option Text
  context : Text
  deriving DecidableEq

def Selection.item (s : Selection N) : Item := ⟨s.text, s.comment⟩

def boundary : Text := "\n## My request:\n".toList

/-- The context and the request: an explicit boundary, outside fences and alone. -/
def splitTail (tail : Text) : Text × Option Text :=
  match splitAt? boundary tail with
  | some (before, request) =>
    if !occurs "```".toList before && !occurs "~~~".toList before && !occurs boundary request &&
        request ≠ [] then
      (before, some request)
    else (tail, none)
  | none => (tail, none)

/-- `parse`. -/
def parse (d : Doubles F) (parseJson : Text → Option Value) (text : Text) : Option Context :=
  (stripFront? preamble text).bind fun rest =>
  (splitAt? closing rest).bind fun cut =>
  if cut.1.contains '\n' || cut.1.contains '\r' ||
      (!cut.2.isEmpty && cut.2.head? != some '\n') then none
  else
    (readList d parseJson cut.1).bind fun selections =>
    if selections.isEmpty then none
    else
      (selections.mapM (Selection.canonical d)).bind fun canonical =>
      if '[' :: List.intercalate [','] canonical ++ [']'] = cut.1 then
        some ⟨1, selections.map Selection.item, (splitTail cut.2).2, (splitTail cut.2).1⟩
      else none

/-! ## the two spellings agree -/

variable {d : Doubles F}

theorem Decimal.exponent_plus {d : Decimal} (h : 0 < d.point) :
    (d.exponent []).flatMap (fun c => if c = 'e' then ['e', '+'] else [c]) = d.exponent ['+'] := by
  have hkeep : ∀ t : Text, (∀ c ∈ t, c.isDigit = true) →
      t.flatMap (fun c => if c = 'e' then ['e', '+'] else [c]) = t := by
    intro t ht
    have hone : ∀ c ∈ t, (if c = 'e' then ['e', '+'] else [c]) = [c] := by
      intro c hc
      rw [if_neg]
      rintro rfl
      exact absurd (ht _ hc) (by decide)
    rw [List.flatMap_congr hone]
    simp
  have htake := hkeep (d.digits.take 1) fun c hc => d.isDigit c (List.mem_of_mem_take hc)
  have htail := hkeep d.digits.tail fun c hc => d.isDigit c (List.mem_of_mem_tail hc)
  have hpower := hkeep (Nat.toDigits 10 (d.point - 1).natAbs) fun c hc =>
    Nat.isDigit_of_mem_toDigits (by decide) (by decide) hc
  simp only [exponent, if_pos h, List.flatMap_append, List.flatMap_cons, htake, hpower]
  split
  · simp
  · simp [htail]

/-- A whole number has a digit before the point. -/
theorem Doubles.point_pos {x : F} {q : ℚ} (hx : d.value x = some q) (hq : 0 < q) (hden : q.den = 1) :
    0 < (d.shortest x).point := by
  have hnum : (q.num : ℚ) = q := Rat.coe_int_num_of_den_eq_one hden
  have hone : (1 : ℚ) ≤ q := by
    rw [← hnum]
    exact_mod_cast Rat.num_pos.mpr hq
  have hpoint := d.point_le x q 0 (by decide) hx hq
  simp only [pow_zero, Nat.cast_zero] at hpoint
  exact not_le.mp fun h => absurd (hpoint.mp h) (not_lt.mpr hone)

/-- A whole number that is not negative is spelled as the client spells it. -/
theorem number_eq {x : F} {q : ℚ} (hx : d.value x = some q) (hq : 0 ≤ q) (hden : q.den = 1) :
    number d x = d.jsNumber x := by
  by_cases hzero : q = 0
  · subst hzero
    rw [number, Doubles.jsNumber, if_pos hx, if_pos hx]
  · have hpos : 0 < q := lt_of_le_of_ne hq (Ne.symm hzero)
    have hne : d.value x ≠ some 0 := by simpa [hx] using hzero
    have hpoint := Doubles.point_pos hx hpos hden
    have hsmall := d.point_le x q 21 (by decide) hx hpos
    rw [number, Doubles.jsNumber, if_neg hne, if_neg hne, Decimal.jsNumber]
    by_cases h : q < 10 ^ 21
    · rw [if_pos (by simpa [hx] using h), if_pos ⟨by omega, hsmall.mpr h⟩]
    · rw [if_neg (by simpa [hx] using h), if_neg fun hjs => h (hsmall.mp hjs.2)]
      exact Decimal.exponent_plus hpoint

def natText (n : Nat) : Text := Nat.toDigits 10 n

def textValue (t : Text) : Value := .str (String.ofList t)

/-- The object that the client's list has for a source. -/
def Source.toValue (s : Source Nat) : Value :=
  .obj [("messageId", textValue s.messageId), ("startOffset", .num s.startOffset),
    ("endOffset", .num s.endOffset)]

/-- The object that the client's list has for a selection. -/
def Selection.toValue (s : Selection Nat) : Value :=
  .obj ([("text", textValue s.text)] ++
    (s.comment.map fun a => ("annotation", textValue a)).toList ++
    (s.source.map fun src => ("source", src.toValue)).toList)

/-- The whole numbers, spelled by their digits. -/
def Doubles.whole : Doubles Nat where
  ofInt := Int.toNat
  ofDec _ := none
  value n := some n
  shortest n := ⟨natText n, (natText n).length, fun _ =>
    Nat.isDigit_of_mem_toDigits (by decide) (by decide)⟩
  value_ofInt n _ := rfl
  plain_nat x n _ _ h := by
    obtain rfl : x = n := Nat.cast_injective (Option.some.inj h)
    simp [Decimal.plain, natText]
  point_le x q k _ h hq := by
    obtain rfl := Option.some.inj h
    have hlen : (natText x).length ≤ k ↔ x < 10 ^ k := by
      cases k with
      | zero => simpa [natText] using (Nat.cast_pos.mp hq).ne'
      | succ k => exact Nat.length_toDigits_le_iff (by decide) k.succ_pos
    show ((natText x).length : ℤ) ≤ k ↔ (x : ℚ) < 10 ^ k
    exact_mod_cast hlen

end ClaudeReplay.Codex.Reply
