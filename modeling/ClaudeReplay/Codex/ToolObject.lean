import ClaudeReplay.Lib.Cut
import ClaudeReplay.Lib.Value

/-!
# ClaudeReplay.Codex.ToolObject

The object that Codex's orchestration code passes to a tool.

The code is JavaScript, and its objects are JSON but for keys that may stand without quotes.
`jsToolObject` finds the call, takes the text from the first brace to the one that closes it,
puts quotes around the bare keys, and has a JSON parser read the rest.

`Js` is an object as the code may write it: with any white space, and with any keys of ASCII
letters, digits and underscores left bare. Its text is cut out whole
(`balancedJsArgument_text`), and quoting gives the text of the same object with every
key in quotes (`quoteBareJsKeys_text`).

The JSON parser is a parameter.
-/

namespace ClaudeReplay.Codex.ToolObject

open Lib

abbrev Text := List Char

def apostrophe : Char := Char.ofNat 39

/-! ## the code -/

/-- The scan from an opening brace to its match, strings left alone. The code goes byte by
byte; all that it acts on is ASCII. -/
def scanObject : Nat → Option Char → Bool → Text → Option Text
  | _, _, _, [] => none
  | depth, some q, escaped, c :: cs =>
    (if escaped then scanObject depth (some q) false cs
    else if c = '\\' then scanObject depth (some q) true cs
    else if c = q then scanObject depth none false cs
    else scanObject depth (some q) false cs).map (c :: ·)
  | depth, none, escaped, c :: cs =>
    if c = '"' ∨ c = apostrophe then (scanObject depth (some c) escaped cs).map (c :: ·)
    else if c = '\x7b' then (scanObject (depth + 1) none escaped cs).map (c :: ·)
    else if c = '\x7d' then
      if depth = 0 then none
      else if depth = 1 then some [c]
      else (scanObject (depth - 1) none escaped cs).map (c :: ·)
    else (scanObject depth none escaped cs).map (c :: ·)

/-- `balanced_js_argument`. -/
def balancedJsArgument (input : Text) : Option Text :=
  scanObject 0 none false (input.dropWhile (· ≠ '\x7b'))

def isWordStart (c : Char) : Bool := c.isAlpha || c = '_'

def isWordChar (c : Char) : Bool := c.isAlphanum || c = '_'

/-- `is_ascii_whitespace`. -/
def isAsciiSpace (c : Char) : Bool :=
  c = ' ' || c = '\t' || c = '\n' || c = '\x0c' || c = '\r'

/-- A colon is the next character but for white space. -/
def colonNext (cs : Text) : Bool := (cs.dropWhile isAsciiSpace).head? = some ':'

/-- The loop of `quote_bare_js_keys`, from a state on. -/
def quoteBare (quote : Option Char) (escaped keyPosition : Bool) : Text → Text
  | [] => []
  | c :: cs =>
    if 0x80 ≤ c.toNat then c :: quoteBare quote false keyPosition cs
    else
      match quote with
      | some q =>
        c :: if escaped then quoteBare quote false keyPosition cs
          else if c = '\\' then quoteBare quote true keyPosition cs
          else if c = q then quoteBare none false keyPosition cs
          else quoteBare quote false keyPosition cs
      | none =>
        if c = '"' ∨ c = apostrophe then c :: quoteBare (some c) escaped keyPosition cs
        else if c = '\x7b' ∨ c = ',' then c :: quoteBare none escaped true cs
        else if c = ':' then c :: quoteBare none escaped false cs
        else if keyPosition ∧ isWordStart c then
          let word := c :: cs.takeWhile isWordChar
          let rest := cs.dropWhile isWordChar
          (if colonNext rest then '"' :: word ++ ['"'] else word) ++
            quoteBare none escaped keyPosition rest
        else c :: quoteBare none escaped keyPosition cs
termination_by cs => cs.length
decreasing_by
  all_goals simp only [List.length_cons]
  all_goals first
    | omega
    | exact Nat.lt_succ_of_le (List.dropWhile_sublist _).length_le

/-- `quote_bare_js_keys`. -/
def quoteBareJsKeys (input : Text) : Text := quoteBare none false true input

/-- The call that the object is the argument of. -/
def marker (name : Text) : Text := "tools.".toList ++ name ++ ['(']

/-- `js_tool_object`. -/
def jsToolObject (parseJson : Text → Option Value) (code name : Text) : Option Value :=
  (splitAt? (marker name) code).bind fun cut =>
  (balancedJsArgument cut.2).bind fun object => parseJson (quoteBareJsKeys object)

/-! ## objects as the code writes them -/

/-- White space. -/
structure Gap where
  text : Text
  space : text.all isAsciiSpace = true

/-- Whether a text may stand between double quotes: each quote in it is escaped. -/
def closed : Text → Bool
  | [] => true
  | '\\' :: _ :: cs => closed cs
  | c :: cs => c ≠ '\\' && c ≠ '"' && closed cs

/-- The spelling of a string. -/
structure Spelling where
  text : Text
  closed : closed text = true

def isLiteralChar (c : Char) : Bool := isWordChar c || c = '-' || c = '+' || c = '.'

/-- A number, or one of `true`, `false` and `null`. -/
structure Literal where
  text : Text
  literal : text.all isLiteralChar = true

/-- A key that may stand without quotes. -/
structure Ident where
  start : Char
  rest : Text
  isStart : isWordStart start = true
  isRest : rest.all isWordChar = true

inductive Key
  | quoted (s : Spelling)
  | bare (i : Ident)

mutual
/-- A value, with the white space inside it. -/
inductive Js
  | literal (l : Literal)
  | string (s : Spelling)
  | emptyArray (gap : Gap)
  | array (items : Items)
  | emptyObject (gap : Gap)
  | object (members : Members)

inductive Items
  | one (before : Gap) (v : Js) (after : Gap)
  | more (before : Gap) (v : Js) (after : Gap) (items : Items)

inductive Members
  | one (before : Gap) (k : Key) (beforeColon afterColon : Gap) (v : Js) (after : Gap)
  | more (before : Gap) (k : Key) (beforeColon afterColon : Gap) (v : Js) (after : Gap)
      (members : Members)
end

/-- The name of a bare key. -/
def Ident.text (i : Ident) : Text := i.start :: i.rest

/-- A key as it is written, or with quotes around it all the same. -/
def Key.text (quotes : Bool) : Key → Text
  | .quoted s => '"' :: s.text ++ ['"']
  | .bare i => if quotes then '"' :: i.text ++ ['"'] else i.text

mutual
/-- A value as it is written, or with quotes around each key. -/
def Js.text (quotes : Bool) : Js → Text
  | .literal l => l.text
  | .string s => '"' :: s.text ++ ['"']
  | .emptyArray gap => '[' :: gap.text ++ [']']
  | .array items => '[' :: items.text quotes ++ [']']
  | .emptyObject gap => '\x7b' :: gap.text ++ ['\x7d']
  | .object members => '\x7b' :: members.text quotes ++ ['\x7d']

def Items.text (quotes : Bool) : Items → Text
  | .one before v after => before.text ++ v.text quotes ++ after.text
  | .more before v after items =>
    before.text ++ v.text quotes ++ after.text ++ ',' :: items.text quotes

def Members.text (quotes : Bool) : Members → Text
  | .one before k beforeColon afterColon v after =>
    before.text ++ k.text quotes ++ beforeColon.text ++ ':' :: afterColon.text ++
      v.text quotes ++ after.text
  | .more before k beforeColon afterColon v after members =>
    before.text ++ k.text quotes ++ beforeColon.text ++ ':' :: afterColon.text ++
      v.text quotes ++ after.text ++ ',' :: members.text quotes
end

def Js.isObject : Js → Bool
  | .emptyObject _ | .object _ => true
  | _ => false

/-! ## the characters -/

/-- A character that neither scan acts on. -/
def isPlain (c : Char) : Bool :=
  c.toNat < 0x80 && c ≠ '"' && c ≠ apostrophe && c ≠ '\x7b' && c ≠ '\x7d' && c ≠ ',' && c ≠ ':'

theorem Gap.plain (g : Gap) : ∀ c ∈ g.text, isPlain c = true ∧ isWordStart c = false := by
  intro c hc
  have hspace := List.all_eq_true.mp g.space c hc
  simp only [isAsciiSpace, Bool.or_eq_true, decide_eq_true_eq] at hspace
  rcases hspace with (((rfl | rfl) | rfl) | rfl) | rfl <;> decide

theorem isLiteralChar_plain {c : Char} (h : isLiteralChar c = true) : isPlain c = true := by
  have hall : ∀ n : Fin 128, isLiteralChar (Char.ofNat n) = true →
      isPlain (Char.ofNat n) = true := by decide +kernel
  have hlt : c.toNat < 128 := by
    delta isLiteralChar isWordChar Char.isAlphanum Char.isAlpha Char.isUpper Char.isLower
      Char.isDigit at h
    simp only [Bool.or_eq_true, Bool.and_eq_true, decide_eq_true_eq, UInt32.le_iff_toNat_le] at h
    have hval : c.val.toNat = c.toNat := rfl
    rcases h with (((h | rfl) | rfl) | rfl) | rfl
    · simp at h
      omega
    all_goals decide
  have hc := hall ⟨c.toNat, hlt⟩
  rw [Char.ofNat_toNat] at hc
  exact hc h

theorem open_ne_apostrophe : '\x7b' ≠ apostrophe := by decide

theorem close_ne_apostrophe : '\x7d' ≠ apostrophe := by decide

/-! ## the cut -/

/-- The scan goes through the text and comes out at the depth it had. -/
def Balanced (xs : Text) : Prop :=
  ∀ depth rest, scanObject (depth + 1) none false (xs ++ rest) =
    (scanObject (depth + 1) none false rest).map (xs ++ ·)

theorem balanced_nil : Balanced [] := by
  intro depth rest
  simp

theorem Balanced.append {xs ys : Text} (hxs : Balanced xs) (hys : Balanced ys) :
    Balanced (xs ++ ys) := by
  intro depth rest
  rw [List.append_assoc, hxs, hys]
  simp [Option.map_map, Function.comp_def]

/-- A character that is no quote and no brace. -/
theorem balanced_one {c : Char} (h : c ≠ '"' ∧ c ≠ apostrophe ∧ c ≠ '\x7b' ∧ c ≠ '\x7d') :
    Balanced [c] := by
  intro depth rest
  obtain ⟨hquote, hapos, hopen, hclose⟩ := h
  simp [scanObject, hquote, hapos, hopen, hclose]

theorem balanced_of_plain {xs : Text} (h : ∀ c ∈ xs, isPlain c = true) : Balanced xs := by
  induction xs with
  | nil => exact balanced_nil
  | cons c cs ih =>
    rw [List.forall_mem_cons] at h
    have hc := h.1
    simp only [isPlain, Bool.and_eq_true, decide_eq_true_eq, ne_eq, decide_not, Bool.not_eq_true',
      decide_eq_false_iff_not] at hc
    have hone : Balanced [c] := balanced_one (by grind)
    exact hone.append (ih h.2)

/-- Inside quotes the scan looks for the quote alone. -/
theorem scanObject_spelling {xs : Text} (h : closed xs = true) (depth : Nat) (rest : Text) :
    scanObject depth (some '"') false (xs ++ '"' :: rest) =
      (scanObject depth none false rest).map (xs ++ '"' :: ·) := by
  fun_induction closed xs with
  | case1 => simp [scanObject]
  | case2 c cs ih => simp [scanObject, ih h, Option.map_map, Function.comp_def]
  | case3 c cs hescape ih =>
    simp only [Bool.and_eq_true, ne_eq, decide_not, Bool.not_eq_true',
      decide_eq_false_iff_not] at h
    obtain ⟨⟨hslash, hquote⟩, hcs⟩ := h
    simp [scanObject, hslash, hquote, ih hcs, Option.map_map, Function.comp_def]

theorem Spelling.balanced (s : Spelling) : Balanced ('"' :: s.text ++ ['"']) := by
  intro depth rest
  have hscan := scanObject_spelling s.closed (depth + 1) rest
  simp [scanObject, hscan, Option.map_map, Function.comp_def]

/-- A balanced text in braces. -/
theorem Balanced.braces {xs : Text} (h : Balanced xs) : Balanced ('\x7b' :: xs ++ ['\x7d']) := by
  intro depth rest
  have hscan := h (depth + 1) ('\x7d' :: rest)
  simp [scanObject, hscan, open_ne_apostrophe, close_ne_apostrophe, Option.map_map,
    Function.comp_def]

/-- At the outermost braces the scan ends. -/
theorem scanObject_braces {xs : Text} (h : Balanced xs) (rest : Text) :
    scanObject 0 none false ('\x7b' :: xs ++ '\x7d' :: rest) = some ('\x7b' :: xs ++ ['\x7d']) := by
  have hscan := h 0 ('\x7d' :: rest)
  simp [scanObject, hscan, open_ne_apostrophe, close_ne_apostrophe]

theorem Gap.balanced (g : Gap) : Balanced g.text :=
  balanced_of_plain fun c hc => (g.plain c hc).1

theorem Literal.balanced (l : Literal) : Balanced l.text :=
  balanced_of_plain fun c hc => isLiteralChar_plain (List.all_eq_true.mp l.literal c hc)

theorem isWordChar_literal {c : Char} (h : isWordChar c = true) : isLiteralChar c = true := by
  simp [isLiteralChar, h]

theorem isWordStart_wordChar {c : Char} (h : isWordStart c = true) : isWordChar c = true := by
  simp only [isWordStart, Bool.or_eq_true] at h
  rcases h with h | h <;> simp [isWordChar, Char.isAlphanum, h]

theorem Ident.all_word (i : Ident) : ∀ c ∈ i.text, isWordChar c = true := by
  simp only [Ident.text, List.forall_mem_cons]
  exact ⟨isWordStart_wordChar i.isStart, List.all_eq_true.mp i.isRest⟩

theorem Key.balanced (k : Key) : Balanced (k.text false) := by
  cases k with
  | quoted s => exact s.balanced
  | bare i =>
    exact balanced_of_plain fun c hc =>
      isLiteralChar_plain (isWordChar_literal (i.all_word c hc))

theorem balanced_comma : Balanced [','] := balanced_one (by decide)

theorem balanced_colon : Balanced [':'] := balanced_one (by decide)

theorem Balanced.brackets {xs : Text} (h : Balanced xs) : Balanced ('[' :: xs ++ [']']) := by
  have hopen : Balanced ['['] := balanced_one (by decide)
  have hclose : Balanced [']'] := balanced_one (by decide)
  simpa using (hopen.append h).append hclose

mutual
theorem Js.balanced : ∀ v : Js, Balanced (v.text false)
  | .literal l => by
    rw [Js.text]
    exact l.balanced
  | .string s => by
    rw [Js.text]
    exact s.balanced
  | .emptyArray gap => by
    rw [Js.text]
    exact gap.balanced.brackets
  | .array items => by
    rw [Js.text]
    exact items.balanced.brackets
  | .emptyObject gap => by
    rw [Js.text]
    exact gap.balanced.braces
  | .object members => by
    rw [Js.text]
    exact members.balanced.braces

theorem Items.balanced : ∀ items : Items, Balanced (items.text false)
  | .one before v after => by
    rw [Items.text]
    exact (before.balanced.append v.balanced).append after.balanced
  | .more before v after items => by
    have hfirst := (before.balanced.append v.balanced).append after.balanced
    simpa [Items.text] using (hfirst.append balanced_comma).append items.balanced

theorem Members.balanced : ∀ members : Members, Balanced (members.text false)
  | .one before k beforeColon afterColon v after => by
    have hkey := (before.balanced.append k.balanced).append beforeColon.balanced
    have hvalue := (afterColon.balanced.append v.balanced).append after.balanced
    simpa [Members.text] using (hkey.append balanced_colon).append hvalue
  | .more before k beforeColon afterColon v after members => by
    have hkey := (before.balanced.append k.balanced).append beforeColon.balanced
    have hvalue := (afterColon.balanced.append v.balanced).append after.balanced
    have hfirst := (hkey.append balanced_colon).append hvalue
    simpa [Members.text] using (hfirst.append balanced_comma).append members.balanced
end

theorem Js.braces {v : Js} (hobject : v.isObject = true) :
    ∃ xs, Balanced xs ∧ v.text false = '\x7b' :: xs ++ ['\x7d'] := by
  cases v with
  | emptyObject gap => exact ⟨gap.text, gap.balanced, by rw [Js.text]⟩
  | object members => exact ⟨members.text false, members.balanced, by rw [Js.text]⟩
  | _ => simp [Js.isObject] at hobject

/-- **The object is cut out whole.** Whatever code follows it, and whatever white space comes
before it. -/
theorem balancedJsArgument_text {v : Js} (hobject : v.isObject = true) (gap : Gap)
    (after : Text) :
    balancedJsArgument (gap.text ++ v.text false ++ after) = some (v.text false) := by
  obtain ⟨xs, hxs, htext⟩ := v.braces hobject
  have hgap : ∀ c ∈ gap.text, decide (c ≠ '\x7b') = true := by
    intro c hc
    have hplain := (gap.plain c hc).1
    simp only [isPlain, Bool.and_eq_true] at hplain
    exact hplain.1.1.1.2
  have hscan := scanObject_braces hxs after
  rw [balancedJsArgument, List.append_assoc, List.dropWhile_append_of_pos hgap, htext]
  simpa using hscan

/-! ## the quotes -/

/-- What follows a value. -/
def Ends (rest : Text) : Prop :=
  ∃ gap : Gap, ∃ c more, rest = gap.text ++ c :: more ∧ (c = ',' ∨ c = ']' ∨ c = '\x7d')

theorem colonNext_gap (gap : Gap) (c : Char) (hc : isAsciiSpace c = false) (more : Text) :
    colonNext (gap.text ++ c :: more) = decide (c = ':') := by
  have hgap : ∀ d ∈ gap.text, isAsciiSpace d = true := List.all_eq_true.mp gap.space
  rw [colonNext, List.dropWhile_append_of_pos hgap]
  simp [hc]

theorem Ends.colonNext {rest : Text} (h : Ends rest) : colonNext rest = false := by
  obtain ⟨gap, c, more, rfl, hc⟩ := h
  have hspace : isAsciiSpace c = false := by rcases hc with rfl | rfl | rfl <;> decide
  rw [colonNext_gap gap c hspace more]
  rcases hc with rfl | rfl | rfl <;> decide

/-- A word does not run on through white space. -/
theorem takeWhile_gap (gap : Gap) {c : Char} (hc : isWordChar c = false) (more : Text) :
    (gap.text ++ c :: more).takeWhile isWordChar = [] := by
  obtain ⟨gap, hgap⟩ := gap
  cases gap with
  | nil => simp [hc]
  | cons d ds =>
    have hspace : isAsciiSpace d = true := List.all_eq_true.mp hgap d List.mem_cons_self
    have hd : isWordChar d = false := by
      simp only [isAsciiSpace, Bool.or_eq_true, decide_eq_true_eq] at hspace
      rcases hspace with (((rfl | rfl) | rfl) | rfl) | rfl <;> decide
    simp [hd]

theorem Ends.takeWhile {rest : Text} (h : Ends rest) : rest.takeWhile isWordChar = [] := by
  obtain ⟨gap, c, more, rfl, hc⟩ := h
  exact takeWhile_gap gap (by rcases hc with rfl | rfl | rfl <;> decide) more

theorem quoteBare_plain {c : Char} (hc : isPlain c = true) {kp : Bool} (rest : Text)
    (hword : kp = false ∨ isWordStart c = false) :
    quoteBare none false kp (c :: rest) = c :: quoteBare none false kp rest := by
  simp only [isPlain, Bool.and_eq_true, decide_eq_true_eq, ne_eq, decide_not, Bool.not_eq_true',
    decide_eq_false_iff_not] at hc
  have hascii : ¬0x80 ≤ c.toNat := by omega
  have hno : ¬(kp = true ∧ isWordStart c = true) := by grind
  rw [quoteBare, if_neg hascii]
  simp [hc, hno]

theorem quoteBare_gap {xs : Text} (h : ∀ c ∈ xs, isPlain c = true ∧ isWordStart c = false)
    (kp : Bool) (rest : Text) :
    quoteBare none false kp (xs ++ rest) = xs ++ quoteBare none false kp rest := by
  induction xs with
  | nil => rfl
  | cons c cs ih =>
    rw [List.forall_mem_cons] at h
    simp [quoteBare_plain h.1.1 _ (.inr h.1.2), ih h.2]

theorem quoteBare_comma (kp : Bool) (rest : Text) :
    quoteBare none false kp (',' :: rest) = ',' :: quoteBare none false true rest := by
  rw [quoteBare]
  rfl

theorem quoteBare_open (kp : Bool) (rest : Text) :
    quoteBare none false kp ('\x7b' :: rest) = '\x7b' :: quoteBare none false true rest := by
  rw [quoteBare]
  rfl

theorem quoteBare_close (kp : Bool) (rest : Text) :
    quoteBare none false kp ('\x7d' :: rest) = '\x7d' :: quoteBare none false kp rest := by
  rw [quoteBare]
  simp [isWordStart, close_ne_apostrophe]

theorem quoteBare_colon (kp : Bool) (rest : Text) :
    quoteBare none false kp (':' :: rest) = ':' :: quoteBare none false false rest := by
  rw [quoteBare]
  rfl

theorem quoteBare_spelling {xs : Text} (h : closed xs = true) (kp : Bool) (rest : Text) :
    quoteBare (some '"') false kp (xs ++ '"' :: rest) =
      xs ++ '"' :: quoteBare none false kp rest := by
  fun_induction closed xs with
  | case1 => simp [quoteBare]
  | case2 c cs ih => 
    simp [quoteBare, ih h]
  | case3 c cs hescape ih =>
    simp only [Bool.and_eq_true, ne_eq, decide_not, Bool.not_eq_true',
      decide_eq_false_iff_not] at h
    obtain ⟨⟨hslash, hquote⟩, hcs⟩ := h
    simp [quoteBare, hslash, hquote, ih hcs]

theorem Spelling.quoteBare (s : Spelling) (kp : Bool) (rest : Text) :
    quoteBare none false kp ('"' :: s.text ++ ['"'] ++ rest) =
      '"' :: s.text ++ ['"'] ++ ToolObject.quoteBare none false kp rest := by
  have hspelling := quoteBare_spelling s.closed kp rest
  simp [ToolObject.quoteBare, hspelling]

theorem quoteBare_word {c : Char} (hc : isWordStart c = true) (cs : Text) :
    quoteBare none false true (c :: cs) =
      (if colonNext (cs.dropWhile isWordChar) then
          '"' :: c :: cs.takeWhile isWordChar ++ ['"']
        else c :: cs.takeWhile isWordChar) ++
        quoteBare none false true (cs.dropWhile isWordChar) := by
  have hplain := isLiteralChar_plain (isWordChar_literal (isWordStart_wordChar hc))
  simp only [isPlain, Bool.and_eq_true, decide_eq_true_eq, ne_eq, decide_not, Bool.not_eq_true',
    decide_eq_false_iff_not] at hplain
  have hascii : ¬0x80 ≤ c.toNat := by omega
  rw [quoteBare, if_neg hascii]
  simp [hplain, hc]

theorem takeWhile_append_ends {xs rest : Text} (h : rest.takeWhile isWordChar = []) :
    (xs ++ rest).takeWhile isWordChar = xs.takeWhile isWordChar := by
  induction xs with
  | nil => simpa using h
  | cons c cs ih => by_cases hc : isWordChar c = true <;> simp [hc, ih]

theorem dropWhile_append_ends {xs rest : Text} (h : rest.takeWhile isWordChar = []) :
    (xs ++ rest).dropWhile isWordChar = xs.dropWhile isWordChar ++ rest := by
  induction xs with
  | nil =>
    have hsplit := List.takeWhile_append_dropWhile (p := isWordChar) (l := rest)
    rw [h] at hsplit
    simpa using hsplit
  | cons c cs ih => by_cases hc : isWordChar c = true <;> simp [hc, ih]

theorem isLiteralChar_next {c : Char} (h : isLiteralChar c = true) :
    isAsciiSpace c = false ∧ c ≠ ':' := by
  have hplain := isLiteralChar_plain h
  constructor
  · by_contra hspace
    simp only [isAsciiSpace, Bool.not_eq_false, Bool.or_eq_true, decide_eq_true_eq] at hspace
    rcases hspace with (((rfl | rfl) | rfl) | rfl) | rfl <;> contradiction
  · simp only [isPlain, Bool.and_eq_true] at hplain
    simpa using hplain.2

/-- A number or a word that is no key stays as it is, wherever it stands. -/
theorem quoteBare_literal (xs : Text) (h : xs.all isLiteralChar = true) (kp : Bool) {rest : Text}
    (hrest : Ends rest) :
    quoteBare none false kp (xs ++ rest) = xs ++ quoteBare none false kp rest := by
  induction hlen : xs.length using Nat.strongRecOn generalizing xs with
  | ind n ih =>
    cases xs with
    | nil => rfl
    | cons c cs =>
      simp only [List.all_cons, Bool.and_eq_true] at h
      by_cases hword : kp = true ∧ isWordStart c = true
      · obtain ⟨rfl, hstart⟩ := hword
        have hcs : (cs.dropWhile isWordChar).all isLiteralChar = true := by
          rw [List.all_eq_true] at h ⊢
          exact fun d hd => h.2 d ((List.dropWhile_sublist _).subset hd)
        have hlt : (cs.dropWhile isWordChar).length < n := by
          have := (List.dropWhile_sublist (l := cs) isWordChar).length_le
          simp only [List.length_cons] at hlen
          omega
        have hnext : colonNext (cs.dropWhile isWordChar ++ rest) = false := by
          cases hdrop : cs.dropWhile isWordChar with
          | nil => exact hrest.colonNext
          | cons d ds =>
            have hd : isLiteralChar d = true := by
              simp only [hdrop, List.all_cons, Bool.and_eq_true] at hcs
              exact hcs.1
            obtain ⟨hspace, hcolon⟩ := isLiteralChar_next hd
            simp [colonNext, hspace, hcolon]
        rw [List.cons_append, quoteBare_word hstart, dropWhile_append_ends hrest.takeWhile,
          takeWhile_append_ends hrest.takeWhile, hnext, ih _ hlt _ hcs rfl]
        simp [← List.append_assoc, List.takeWhile_append_dropWhile]
      · rw [List.cons_append, quoteBare_plain (isLiteralChar_plain h.1) _ (by grind)]
        simp at hlen
        rw [ih cs.length (by omega) cs h.2 rfl, List.cons_append]

theorem Literal.quoteBare (l : Literal) (kp : Bool) {rest : Text} (hrest : Ends rest) :
    quoteBare none false kp (l.text ++ rest) = l.text ++ ToolObject.quoteBare none false kp rest :=
  quoteBare_literal l.text l.literal kp hrest

theorem Gap.quoteBare (g : Gap) (kp : Bool) (rest : Text) :
    quoteBare none false kp (g.text ++ rest) = g.text ++ ToolObject.quoteBare none false kp rest :=
  quoteBare_gap g.plain kp rest

/-- A key gets its quotes. -/
theorem Key.quoteBare (k : Key) (gap : Gap) (rest : Text) :
    quoteBare none false true (k.text false ++ (gap.text ++ ':' :: rest)) =
      k.text true ++ (gap.text ++ ':' :: ToolObject.quoteBare none false false rest) := by
  cases k with
  | quoted s => rw [Key.text, Key.text, s.quoteBare, gap.quoteBare, quoteBare_colon]
  | bare i =>
    have hcolon : colonNext (gap.text ++ ':' :: rest) = true := by
      rw [colonNext_gap gap ':' (by decide)]
      rfl
    have hgap : (gap.text ++ ':' :: rest).takeWhile isWordChar = [] :=
      takeWhile_gap gap (by decide) rest
    have hrest := List.all_eq_true.mp i.isRest
    have htake : i.rest.takeWhile isWordChar = i.rest := by
      simpa using @List.takeWhile_append_of_pos _ isWordChar i.rest [] hrest
    have hdrop : i.rest.dropWhile isWordChar = [] := by
      simpa using @List.dropWhile_append_of_pos _ isWordChar i.rest [] hrest
    rw [Key.text, Key.text, Ident.text, if_neg (by decide), if_pos rfl, List.cons_append,
      quoteBare_word i.isStart, dropWhile_append_ends hgap, takeWhile_append_ends hgap, htake,
      hdrop, List.nil_append, if_pos hcolon, gap.quoteBare, quoteBare_colon]

/-- What comes behind a value with white space after it. -/
theorem ends_gap (gap : Gap) {c : Char} (hc : c = ',' ∨ c = ']' ∨ c = '\x7d') (more : Text) :
    Ends (gap.text ++ c :: more) :=
  ⟨gap, c, more, rfl, hc⟩

theorem quoteBare_bracket {c : Char} (hc : c = '[' ∨ c = ']') (kp : Bool) (rest : Text) :
    quoteBare none false kp (c :: rest) = c :: quoteBare none false kp rest :=
  quoteBare_plain (by rcases hc with rfl | rfl <;> decide) rest
    (.inr (by rcases hc with rfl | rfl <;> decide))

mutual
theorem Js.quoteBare : ∀ (v : Js) (kp : Bool) {rest : Text}, Ends rest →
    ∃ kp', quoteBare none false kp (v.text false ++ rest) =
      v.text true ++ ToolObject.quoteBare none false kp' rest
  | .literal l, kp, rest, hrest => by
    rw [Js.text, Js.text]
    exact ⟨kp, l.quoteBare kp hrest⟩
  | .string s, kp, rest, hrest => by
    rw [Js.text, Js.text]
    exact ⟨kp, s.quoteBare kp rest⟩
  | .emptyArray gap, kp, rest, hrest => by
    exists kp
    simp [Js.text, quoteBare_bracket, gap.quoteBare]
  | .array items, kp, rest, hrest => by
    obtain ⟨kp', hitems⟩ := items.quoteBare kp rest
    exists kp'
    simp [Js.text, quoteBare_bracket, hitems]
  | .emptyObject gap, kp, rest, hrest => by
    exists true
    simp [Js.text, quoteBare_open, quoteBare_close, gap.quoteBare]
  | .object members, kp, rest, hrest => by
    obtain ⟨kp', hmembers⟩ := members.quoteBare rest
    exists kp'
    simp [Js.text, quoteBare_open, quoteBare_close, hmembers]

theorem Items.quoteBare : ∀ (items : Items) (kp : Bool) (rest : Text),
    ∃ kp', quoteBare none false kp (items.text false ++ ']' :: rest) =
      items.text true ++ ToolObject.quoteBare none false kp' (']' :: rest)
  | .one before v after, kp, rest => by
    obtain ⟨kp', hv⟩ := v.quoteBare kp (ends_gap after (.inr (.inl rfl)) rest)
    exists kp'
    simp [Items.text, before.quoteBare, hv, after.quoteBare]
  | .more before v after items, kp, rest => by
    obtain ⟨kp', hv⟩ :=
      v.quoteBare kp (ends_gap after (.inl rfl) (items.text false ++ ']' :: rest))
    obtain ⟨kp'', hitems⟩ := items.quoteBare true rest
    exists kp''
    simp [Items.text, before.quoteBare, hv, after.quoteBare, quoteBare_comma, hitems]

theorem Members.quoteBare : ∀ (members : Members) (rest : Text),
    ∃ kp', quoteBare none false true (members.text false ++ '\x7d' :: rest) =
      members.text true ++ ToolObject.quoteBare none false kp' ('\x7d' :: rest)
  | .one before k beforeColon afterColon v after, rest => by
    obtain ⟨kp', hv⟩ := v.quoteBare false (ends_gap after (.inr (.inr rfl)) rest)
    exists kp'
    simp [Members.text, before.quoteBare, k.quoteBare, afterColon.quoteBare, hv, after.quoteBare]
  | .more before k beforeColon afterColon v after members, rest => by
    obtain ⟨kp', hv⟩ :=
      v.quoteBare false (ends_gap after (.inl rfl) (members.text false ++ '\x7d' :: rest))
    obtain ⟨kp'', hmembers⟩ := members.quoteBare rest
    exists kp''
    simp [Members.text, before.quoteBare, k.quoteBare, afterColon.quoteBare, hv, after.quoteBare,
      quoteBare_comma, hmembers]
end

/-- **The keys get their quotes, and nothing else changes.** -/
theorem quoteBareJsKeys_text {v : Js} (hobject : v.isObject = true) :
    quoteBareJsKeys (v.text false) = v.text true := by
  have hend : quoteBare none false true [] = [] := by rw [quoteBare]
  cases v with
  | emptyObject gap =>
    simp [quoteBareJsKeys, Js.text, quoteBare_open, gap.quoteBare, quoteBare_close, hend]
  | object members =>
    obtain ⟨kp, hmembers⟩ := members.quoteBare []
    have hend : quoteBare none false kp [] = [] := by rw [quoteBare]
    simp [quoteBareJsKeys, Js.text, quoteBare_open, hmembers, quoteBare_close, hend]
  | _ => simp [Js.isObject] at hobject

/-! ## the call -/

/-- A text that begins with white space, or with `c`, does not begin with `d`. -/
theorem Gap.ne_of_front (gap : Gap) {c d : Char} (hne : c ≠ d) (hd : isAsciiSpace d = false)
    (more rest : Text) : gap.text ++ c :: more ≠ d :: rest := by
  obtain ⟨gap, hspace⟩ := gap
  cases gap with
  | nil => simp [hne]
  | cons e es =>
    simp only [List.all_cons, Bool.and_eq_true] at hspace
    grind

/-- **A tool's object is read as it was written.** `v` is the object with any of its keys
bare, and `parseJson` reads the same object with every key in quotes. The call is the first
of its name in the code. -/
theorem object_read_as_written {parseJson : Text → Option Value} {v : Js} {value : Value}
    (hobject : v.isObject = true) (hparse : parseJson (v.text true) = some value)
    {name : Text} (hname : '(' ∉ name) {before : Text}
    (hbefore : occurs (marker name) before = false) (gap : Gap) (after : Text) :
    jsToolObject parseJson (before ++ marker name ++ gap.text ++ v.text false ++ after) name =
      some value := by
  have hparen : '(' ∉ "tools.".toList ++ name := by
    simp [hname]
  have hcut : splitAt? (marker name)
      (before ++ marker name ++ (gap.text ++ v.text false ++ after)) =
      some (before, gap.text ++ v.text false ++ after) :=
    splitAt?_append_last hparen hbefore _
  have hassoc : before ++ marker name ++ gap.text ++ v.text false ++ after =
      before ++ marker name ++ (gap.text ++ v.text false ++ after) := by
    simp only [List.append_assoc]
  rw [jsToolObject, hassoc, hcut, Option.bind_some, balancedJsArgument_text hobject,
    Option.bind_some, quoteBareJsKeys_text hobject, hparse]

theorem plan_read_as_written :
    jsToolObject
      (fun text => if text = "\x7b\"plan\" : \"\x7d a:\"\x7d".toList then
        some (.obj [("plan", .str "\x7d a:")]) else none)
      "r = await tools.update_plan( \x7bplan : \"\x7d a:\"\x7d); text(r);".toList
      "update_plan".toList = some (.obj [("plan", .str "\x7d a:")]) := by
  exact object_read_as_written
    (v := .object (.one ⟨[], rfl⟩ (.bare ⟨'p', ['l', 'a', 'n'], rfl, rfl⟩) ⟨[' '], rfl⟩
      ⟨[' '], rfl⟩ (.string ⟨['\x7d', ' ', 'a', ':'], rfl⟩) ⟨[], rfl⟩))
    rfl (if_pos (by decide)) (by decide : '(' ∉ "update_plan".toList)
    (by decide : occurs (marker "update_plan".toList) "r = await ".toList = false)
    ⟨[' '], rfl⟩ "); text(r);".toList

/-- A key that begins with a dollar sign is an identifier too, and stays without quotes. -/
theorem dollar_key_left_bare :
    (∀ parseJson, jsToolObject parseJson "tools.f(\x7b$a:1\x7d)".toList "f".toList =
      parseJson "\x7b$\"a\":1\x7d".toList) ∧
      ∀ v : Js, v.text true ≠ "\x7b$\"a\":1\x7d".toList := by
  have hcut : splitAt? (marker "f".toList) "tools.f(\x7b$a:1\x7d)".toList =
      some ([], "\x7b$a:1\x7d)".toList) := by decide
  have hobject : balancedJsArgument "\x7b$a:1\x7d)".toList = some "\x7b$a:1\x7d".toList := by
    decide
  have hquoted : quoteBareJsKeys "\x7b$a:1\x7d".toList = "\x7b$\"a\":1\x7d".toList := by
    simp [quoteBareJsKeys, quoteBare, apostrophe, isWordStart, isWordChar, colonNext, isAsciiSpace]
  constructor
  · intro parseJson
    rw [jsToolObject, hcut, Option.bind_some, hobject, Option.bind_some, hquoted]
  · intro v hv
    cases v with
    | literal l =>
      have hfirst : '\x7b' ∈ l.text := by
        rw [Js.text] at hv
        rw [hv]
        decide
      have := List.all_eq_true.mp l.literal _ hfirst
      contradiction
    | emptyObject gap =>
      have hne := gap.ne_of_front (c := '\x7d') (d := '$') (by decide) (by decide)
      simp [Js.text, hne] at hv
    | object members =>
      have hkey : ∀ (gap : Gap) (k : Key) (more rest : Text),
          gap.text ++ (k.text true ++ more) ≠ '$' :: rest := by
        intro gap k more rest
        have hne := gap.ne_of_front (c := '"') (d := '$') (by decide) (by decide)
        cases k <;> simp [Key.text, hne]
      cases members <;> simp [Js.text, Members.text, hkey] at hv
    | _ => simp [Js.text] at hv

end ClaudeReplay.Codex.ToolObject
