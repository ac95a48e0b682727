import ClaudeReplay.Claude.Inbox

/-!
# ClaudeReplay.Claude.InboxFormat

What the relay writes and signs is read back.

A `Letter` is a message with the person's words, as the format can carry them: a sender and an
id, a quote and instructions of one line each, words that do not begin like either, and no
escaped closing tag. `write` gives its element: the attributes that are there, with their values
escaped, the quote and the instructions on a line each, the words, and the signature.

The words come back as `pictures` leaves them: the lines that name saved pictures become
images, and white space at the end goes.
-/

namespace ClaudeReplay.Claude.Inbox

open Lib

/-! ## escaping -/

/-- What stands between the ampersand and the next character for a reserved one. -/
def entity (c : Char) : Text :=
  if c = '<' then "lt;".toList
  else if c = '>' then "gt;".toList
  else if c = '"' then "quot;".toList
  else "amp;".toList

/-- A character with only the listed ones escaped. -/
def escapeIn (listed : List Char) (c : Char) : Text :=
  if c ∈ listed then '&' :: entity c else [c]

/-- A value as a tag holds it. -/
def escape (s : Text) : Text := s.flatMap (escapeIn ['<', '>', '"', '&'])

theorem notMem_entity {c : Char} : '&' ∉ entity c := by
  simp only [entity]
  split
  · decide
  · split
    · decide
    · split <;> decide

/-- Undoing one kind of escape. -/
theorem replaceAll_entity {a : Char} {listed : List Char} (hamp : '&' ∈ a :: listed)
    (hother : listed.all (fun c => c ≠ a && !(entity a).isPrefixOf (entity c) &&
      !(entity c).isPrefixOf (entity a)) = true) (s : Text) :
    replaceAll ('&' :: entity a) [a] (s.flatMap (escapeIn (a :: listed))) =
      s.flatMap (escapeIn listed) := by
  simp only [List.all_eq_true, Bool.and_eq_true, decide_eq_true_eq, Bool.not_eq_true',
    ← Bool.not_eq_true, List.isPrefixOf_iff_prefix, and_assoc] at hother
  apply replaceAll_flatMap
  intro c rest
  by_cases hc : c = a
  · subst hc
    have hnot : c ∉ listed := fun hmem => (hother c hmem).1 rfl
    simp only [escapeIn, List.mem_cons_self, if_true, if_neg hnot]
    exact replaceAll_append _ _
  · by_cases hmem : c ∈ listed
    · obtain ⟨-, hac, hca⟩ := hother c hmem
      have hpre : ¬('&' :: entity a <+: '&' :: (entity c ++ rest)) := by
        rw [List.cons_prefix_cons]
        exact fun h => not_prefix_append hac hca h.2
      simp only [escapeIn, List.mem_cons, hmem, or_true, if_true, List.cons_append]
      rw [replaceAll_cons hpre, replaceAll_append_of_notMem notMem_entity]
    · have hne : c ≠ '&' := by
        rintro rfl
        simp [hmem] at hamp
        exact hc hamp
      simp only [escapeIn, List.mem_cons, hc, hmem, or_self, if_false, List.singleton_append]
      exact replaceAll_cons_of_ne hne _ _ _

theorem unescape_escape (s : Text) : unescape (escape s) = s := by
  have hlt := @replaceAll_entity '<' ['>', '"', '&'] (by decide) (by decide) s
  have hgt := @replaceAll_entity '>' ['"', '&'] (by decide) (by decide) s
  have hquot := @replaceAll_entity '"' ['&'] (by decide) (by decide) s
  have hamp := @replaceAll_entity '&' [] (by decide) (by decide) s
  have hnone : s.flatMap (escapeIn []) = s := by
    have hone : escapeIn [] = fun c => [c] := by
      funext c
      simp [escapeIn]
    simp [hone]
  rw [hnone] at hamp
  calc unescape (escape s)
      = replaceAll ('&' :: entity '&') ['&'] (replaceAll ('&' :: entity '"') ['"']
          (replaceAll ('&' :: entity '>') ['>'] (replaceAll ('&' :: entity '<') ['<']
            (s.flatMap (escapeIn ['<', '>', '"', '&']))))) := rfl
    _ = s := by rw [hlt, hgt, hquot, hamp]

theorem unescape_of_notMem {s : Text} (h : '&' ∉ s) : unescape s = s := by
  have hsame : ∀ (ps rep : Text), replaceAll ('&' :: ps) rep s = s := by
    intro ps rep
    have hnothing := replaceAll_append_of_notMem h ps rep []
    simpa using hnothing
  calc unescape s
      = replaceAll ('&' :: entity '&') ['&'] (replaceAll ('&' :: entity '"') ['"']
          (replaceAll ('&' :: entity '>') ['>'] (replaceAll ('&' :: entity '<') ['<'] s))) := rfl
    _ = s := by rw [hsame, hsame, hsame, hsame]

def entityChars : Text := ['&', 'l', 't', ';', 'g', 'q', 'u', 'o', 'a', 'm', 'p']

theorem mem_entity {c x : Char} (h : x ∈ '&' :: entity c) : x ∈ entityChars := by
  have hall : (["lt;".toList, "gt;".toList, "quot;".toList, "amp;".toList].all fun s =>
      ('&' :: s).all entityChars.contains) = true := by decide
  simp only [List.all_eq_true, List.contains_iff_mem] at hall
  simp only [entity] at h
  split at h
  · exact hall _ (by simp) x h
  · split at h
    · exact hall _ (by simp) x h
    · split at h
      · exact hall _ (by simp) x h
      · exact hall _ (by simp) x h

theorem mem_escape {s : Text} {c : Char} (h : c ∈ escape s) :
    c ∈ s ∧ c ∉ ['<', '>', '"', '&'] ∨ c ∈ entityChars := by
  simp only [escape, List.mem_flatMap] at h
  obtain ⟨d, hd, hc⟩ := h
  rw [escapeIn] at hc
  split at hc
  · exact .inr (mem_entity hc)
  · next hnot =>
    rw [List.mem_singleton] at hc
    exact .inl ⟨hc ▸ hd, hc ▸ hnot⟩

theorem notMem_escape {s : Text} {c : Char} (hc : c ∈ ['<', '>', '"']) : c ∉ escape s := by
  intro h
  rcases mem_escape h with ⟨-, hnot⟩ | hmem
  · exact hnot (by revert hc; simp; tauto)
  · revert hmem hc
    simp [entityChars]
    rintro (rfl | rfl | rfl) <;> decide

theorem newline_notMem_escape {s : Text} (h : '\n' ∉ s) : '\n' ∉ escape s := by
  intro hmem
  rcases mem_escape hmem with ⟨hs, -⟩ | hmem
  · exact h hs
  · exact absurd hmem (by decide)

/-! ## what is written -/

/-- The name of an attribute. -/
structure Name where
  text : Text
  ok : text ≠ [] ∧ text.all isNameChar = true

/-- An attribute with its value escaped. -/
def Raw.of (name : Name) (value : Text) : Raw where
  name := name.text
  value := escape value
  nameOk := name.ok
  noQuote := notMem_escape (by decide)

/-- The attributes that are there. -/
def rawsOf (fields : List (Name × Option Text)) : List Raw :=
  fields.filterMap fun field => field.2.map (Raw.of field.1)

def versionName : Name := ⟨"v".toList, by decide⟩

def senderName : Name := ⟨"from".toList, by decide⟩

def viaName : Name := ⟨"via".toList, by decide⟩

def kindName : Name := ⟨"kind".toList, by decide⟩

def sentAtName : Name := ⟨"at".toList, by decide⟩

def idName : Name := ⟨"id".toList, by decide⟩

def aboutName : Name := ⟨"about".toList, by decide⟩

def addresseeName : Name := ⟨"to".toList, by decide⟩

def taskName : Name := ⟨"task".toList, by decide⟩

def guessName : Name := ⟨"guess".toList, by decide⟩

def fields (m : Message) : List (Name × Option Text) :=
  [(versionName, some ['1']), (senderName, some m.sender), (viaName, m.via), (kindName, m.kind),
    (sentAtName, m.sentAt), (idName, some m.id),
    (aboutName, if m.about = [] then none else some ([','].intercalate m.about)),
    (addresseeName, m.addressee), (taskName, m.task), (guessName, m.guess)]

def quoteFields (q : Quote) : List (Name × Option Text) :=
  [(senderName, q.sender), (sentAtName, q.sentAt)]

/-- A text with each closing tag in it escaped. -/
def hideClosing (s : Text) : Text := replaceAll closing hiddenClosing s

def quoteLine (q : Quote) : Text :=
  "<reply-to".toList ++ rawText (rawsOf (quoteFields q)) ++ ['>'] ++ hideClosing q.text ++
    "</reply-to>".toList

def instructionsLine (s : Text) : Text := "<do>".toList ++ hideClosing s ++ "</do>".toList

def quotePart (m : Message) : Text := (m.replyTo.map fun q => quoteLine q ++ ['\n']).getD []

def instructionsPart (m : Message) : Text :=
  if m.instructions = [] then [] else instructionsLine m.instructions ++ ['\n']

def bodyOf (m : Message) (words : Text) : Text :=
  quotePart m ++ (instructionsPart m ++ hideClosing words) ++ ['\n']

def headOf (m : Message) : Text := opening ++ rawText (rawsOf (fields m))

/-- The element, signed. -/
def write (hmac : List UInt8 → Text → Vector UInt8 32) (key : List UInt8) (m : Message)
    (words : Text) : Text :=
  let sig := signature hmac key (signedText (headOf m) (bodyOf m words))
  headOf m ++ " sig=\"".toList ++ sig ++ ['"', '>', '\n'] ++ bodyOf m words ++ closing

/-- What the format can carry. -/
structure Writable (m : Message) (words : Text) : Prop where
  sender : m.sender ≠ []
  id : m.id ≠ []
  about : ∀ item ∈ m.about, item ≠ [] ∧ ',' ∉ item ∧ Trimmed isWhitespace item
  quoted : ∀ q ∈ m.replyTo,
    '\n' ∉ q.text ∧ (∀ s ∈ q.sender, '\n' ∉ s) ∧ ∀ s ∈ q.sentAt, '\n' ∉ s
  told : '\n' ∉ m.instructions
  front : ¬"<reply-to".toList <+: words ∧ ¬"<do>".toList <+: words
  unescaped : ¬hiddenClosing <:+: words ∧ ¬hiddenClosing <:+: m.instructions ∧
    ∀ q ∈ m.replyTo, ¬hiddenClosing <:+: q.text

/-! ## the tag -/

theorem getAttr_attrsFrom (pos : Nat) (rs : List Raw) (name : Text) :
    getAttr (attrsFrom pos rs) name =
      (rs.find? (·.name = name)).map fun r => unescape r.value := by
  induction rs generalizing pos with
  | nil => rfl
  | cons r rs ih =>
    have hrest := ih (pos + r.text.length)
    by_cases hr : r.name = name
    · simp [getAttr, hr]
    · simp only [getAttr] at hrest
      simp [getAttr, hr, hrest]

theorem rawsOf_cons (name : Name) (value : Option Text) (fs : List (Name × Option Text)) :
    rawsOf ((name, value) :: fs) = (value.map (Raw.of name)).toList ++ rawsOf fs := by
  cases value <;> simp [rawsOf]

theorem find?_rawsOf_of_notMem {fs : List (Name × Option Text)} {name : Text}
    (h : name ∉ fs.map (·.1.text)) : (rawsOf fs).find? (·.name = name) = none := by
  rw [List.find?_eq_none]
  intro r hr
  simp only [rawsOf, List.mem_filterMap, Option.map_eq_some_iff] at hr
  obtain ⟨field, hfield, value, -, rfl⟩ := hr
  simp only [decide_eq_true_eq]
  rintro rfl
  exact h (List.mem_map.mpr ⟨field, hfield, rfl⟩)

/-- **A field is read as it was written.** -/
theorem getAttr_rawsOf {fs : List (Name × Option Text)} (hnames : (fs.map (·.1.text)).Nodup)
    (pos : Nat) {name : Name} {value : Option Text} (h : (name, value) ∈ fs) :
    getAttr (attrsFrom pos (rawsOf fs)) name.text = value := by
  rw [getAttr_attrsFrom]
  induction fs with
  | nil => simp at h
  | cons field fs ih =>
    rw [List.map_cons, List.nodup_cons] at hnames
    obtain ⟨name', value'⟩ := field
    rw [rawsOf_cons, List.find?_append]
    rcases List.mem_cons.mp h with heq | hmem
    · cases heq
      have hrest := find?_rawsOf_of_notMem hnames.1
      simp only at hrest
      rw [hrest]
      cases value <;> simp [Raw.of, unescape_escape]
    · have hne : name'.text ≠ name.text := by
        intro heq
        exact hnames.1 (List.mem_map.mpr ⟨_, hmem, heq.symm⟩)
      have hfirst : (value'.map (Raw.of name')).toList.find? (·.name = name.text) = none := by
        cases value' <;> simp [Raw.of, hne]
      rw [hfirst, Option.none_or]
      exact ih hnames.2 hmem

theorem names_rawsOf (fs : List (Name × Option Text)) :
    ((rawsOf fs).map Raw.name).Sublist (fs.map (·.1.text)) := by
  induction fs with
  | nil => exact List.Sublist.refl _
  | cons field fs ih =>
    obtain ⟨name, value⟩ := field
    rw [rawsOf_cons]
    cases value with
    | none => exact ih.cons _
    | some value => exact ih.cons_cons _

/-! ## the signature -/

section Hmac

variable (hmac : List UInt8 → Text → Vector UInt8 32)

theorem length_toHex (bytes : List UInt8) : (toHex bytes).length = 2 * bytes.length := by
  induction bytes with
  | nil => rfl
  | cons b bytes ih =>
    simp only [toHex, List.flatMap_cons, List.length_append, List.length_cons] at ih ⊢
    rw [ih]
    simp [hexDigits]
    omega

theorem isHex_toHex (bytes : List UInt8) : ∀ c ∈ toHex bytes, isHex c = true := by
  have hdigit : ∀ d < 16, isHex (Nat.digitChar d) = true := by decide
  intro c hc
  simp only [toHex, List.mem_flatMap, hexDigits, List.mem_cons, List.not_mem_nil, or_false] at hc
  obtain ⟨b, -, rfl | rfl⟩ := hc
  · exact hdigit _ (by have := b.toNat_lt; omega)
  · exact hdigit _ (by omega)

theorem signature_length (key : List UInt8) (signed : Text) :
    (signature hmac key signed).length = 32 := by
  simp [signature, length_toHex]

theorem signature_isHex (key : List UInt8) (signed : Text) :
    (signature hmac key signed).all isHex = true := by
  rw [List.all_eq_true]
  exact fun c hc => isHex_toHex _ c (List.mem_of_mem_take hc)

/-- Nothing differs from itself. -/
theorem foldl_xor_self (s : Text) (d : Nat) :
    (s.zip s).foldl (fun d ab => d ||| (ab.1.toNat ^^^ ab.2.toNat)) d = d := by
  induction s generalizing d with
  | nil => rfl
  | cons c s ih => simp [ih]

theorem sigMatches_signature (key : List UInt8) (signed : Text) :
    sigMatches hmac key signed (signature hmac key signed) = true := by
  simp [sigMatches, foldl_xor_self]

/-- The signature as an attribute. -/
def sigRaw (key : List UInt8) (signed : Text) : Raw where
  name := "sig".toList
  value := signature hmac key signed
  nameOk := by decide
  noQuote := by
    intro hmem
    have := List.all_eq_true.mp (signature_isHex hmac key signed) _ hmem
    contradiction

theorem unescape_signature (key : List UInt8) (signed : Text) :
    unescape (signature hmac key signed) = signature hmac key signed := by
  apply unescape_of_notMem
  intro hmem
  have := List.all_eq_true.mp (signature_isHex hmac key signed) _ hmem
  contradiction

end Hmac

/-! ## the lines before the words -/

theorem newline_notMem_rawText {rs : List Raw} (h : ∀ r ∈ rs, '\n' ∉ r.value) :
    '\n' ∉ rawText rs := by
  simp only [rawText, List.mem_flatMap, not_exists, not_and]
  intro r hr hmem
  have hname : '\n' ∉ r.name := fun hin => by
    have := List.all_eq_true.mp r.nameOk.2 _ hin
    contradiction
  simp only [Raw.text, List.mem_cons, List.mem_append] at hmem
  simp [hname, h r hr] at hmem

theorem newline_notMem_hideClosing {s : Text} (h : '\n' ∉ s) : '\n' ∉ hideClosing s := by
  intro hmem
  rcases mem_replaceAll hmem with hs | hhidden
  · exact h hs
  · exact absurd hhidden (by decide)

theorem newline_notMem_quoteLine {q : Quote} (htext : '\n' ∉ q.text)
    (hsender : ∀ s ∈ q.sender, '\n' ∉ s) (hsentAt : ∀ s ∈ q.sentAt, '\n' ∉ s) :
    '\n' ∉ quoteLine q := by
  have htag : '\n' ∉ rawText (rawsOf (quoteFields q)) := by
    apply newline_notMem_rawText
    intro r hr
    simp only [rawsOf, quoteFields, List.mem_filterMap, List.mem_cons, List.not_mem_nil, or_false,
      Option.map_eq_some_iff] at hr
    obtain ⟨field, hfield, value, hvalue, rfl⟩ := hr
    rw [Raw.of]
    apply newline_notMem_escape
    rcases hfield with rfl | rfl
    · exact hsender value hvalue
    · exact hsentAt value hvalue
  have hhidden := newline_notMem_hideClosing htext
  have hopen : '\n' ∉ "<reply-to".toList := by decide
  have hclose : '\n' ∉ "</reply-to>".toList := by decide
  unfold quoteLine
  simp only [List.mem_append, not_or]
  exact ⟨⟨⟨⟨hopen, htag⟩, by decide⟩, hhidden⟩, hclose⟩

theorem newline_notMem_instructionsLine {s : Text} (h : '\n' ∉ s) :
    '\n' ∉ instructionsLine s := by
  have hhidden := newline_notMem_hideClosing h
  have hopen : '\n' ∉ "<do>".toList := by decide
  have hclose : '\n' ∉ "</do>".toList := by decide
  unfold instructionsLine
  simp only [List.mem_append, not_or]
  exact ⟨⟨hopen, hhidden⟩, hclose⟩

theorem unescapeBody_hideClosing {s : Text} (h : ¬hiddenClosing <:+: s) :
    unescapeBody (hideClosing s) = s :=
  @replaceAll_back _ _ '<' "/aries-inbox>".toList "\\/aries-inbox>".toList (by decide) s h

/-- Fields of different names are read as they were written, whatever comes behind. -/
theorem attributes_rawsOf {fs : List (Name × Option Text)} (hnames : (fs.map (·.1.text)).Nodup)
    (rest : Text) :
    attributes (rawText (rawsOf fs) ++ '>' :: rest) =
      some (attrsFrom 0 (rawsOf fs), 0 + (rawText (rawsOf fs)).length + 1) := by
  apply attributesFrom_rawText
  exact hnames.sublist (names_rawsOf fs)

/-- **The quote is read back.** -/
theorem readQuote_quoteLine {q : Quote} (h : ¬hiddenClosing <:+: q.text) :
    readQuote (quoteLine q) = some q := by
  have hnames : ((quoteFields q).map (·.1.text)).Nodup := by
    simp only [quoteFields, List.map_cons, List.map_nil]
    decide
  have hsender : getAttr (attrsFrom 0 (rawsOf (quoteFields q))) "from".toList = q.sender :=
    getAttr_rawsOf hnames 0 List.mem_cons_self
  have hsentAt : getAttr (attrsFrom 0 (rawsOf (quoteFields q))) "at".toList = q.sentAt :=
    getAttr_rawsOf hnames 0 (List.mem_cons_of_mem _ List.mem_cons_self)
  have htag := attributes_rawsOf hnames (hideClosing q.text ++ "</reply-to>".toList)
  have hfront : stripFront? "<reply-to".toList (quoteLine q) =
      some (rawText (rawsOf (quoteFields q)) ++
        '>' :: (hideClosing q.text ++ "</reply-to>".toList)) := by
    rw [stripFront?_eq_some]
    unfold quoteLine
    simp only [List.append_assoc, List.cons_append, List.nil_append]
  have hback : stripBack? "</reply-to>".toList (rawText (rawsOf (quoteFields q)) ++
      '>' :: (hideClosing q.text ++ "</reply-to>".toList)) =
      some (rawText (rawsOf (quoteFields q)) ++ '>' :: hideClosing q.text) := by
    rw [stripBack?_eq_some]
    simp only [List.append_assoc, List.cons_append]
  have hfrom : getFrom (rawText (rawsOf (quoteFields q)) ++ '>' :: hideClosing q.text)
      (0 + (rawText (rawsOf (quoteFields q))).length + 1) = some (hideClosing q.text) := by
    rw [getFrom, if_pos (by simp)]
    simp
  rw [readQuote, hfront]
  simp only [Option.bind_eq_bind, Option.bind_some, htag, hback, hfrom, hsender, hsentAt,
    unescapeBody_hideClosing h]
  rfl

/-- The instructions are read back. -/
theorem stripInstructions {s : Text} :
    (stripFront? "<do>".toList (instructionsLine s)).bind (stripBack? "</do>".toList) =
      some (hideClosing s) := by
  have hfront : stripFront? "<do>".toList (instructionsLine s) =
      some (hideClosing s ++ "</do>".toList) := by
    rw [stripFront?_eq_some]
    unfold instructionsLine
    simp only [List.append_assoc]
  rw [hfront, Option.bind_some, stripBack?_eq_some]

theorem firstLine_append {line : Text} (h : '\n' ∉ line) (rest : Text) :
    firstLine (line ++ '\n' :: rest) = (line, rest) := by
  simp [firstLine, splitOnce_append h]

/-- A first line does not begin with what the body does not begin with. -/
theorem firstLine_not_prefix {front body : Text} (h : ¬front <+: body) :
    ¬front <+: (firstLine body).1 := by
  cases hcut : splitOnce '\n' body with
  | none => simpa [firstLine, hcut] using h
  | some cut =>
    rw [firstLine, hcut, Option.getD_some]
    intro hpre
    rw [(splitOnce_eq_some hcut).1] at h
    exact h (hpre.trans (List.prefix_append _ _))

theorem stripFront?_firstLine {pre body : Text} (h : ¬pre <+: body) :
    stripFront? pre (firstLine body).1 = none := by
  rw [Option.eq_none_iff_forall_not_mem]
  intro rest hrest
  rw [Option.mem_def, stripFront?_eq_some] at hrest
  exact firstLine_not_prefix h ⟨rest, hrest.symm⟩

theorem replyTo_of_not_prefix {body : Text} (h : ¬"<reply-to".toList <+: body) :
    replyTo body = (none, body) := by
  have hquote : readQuote (firstLine body).1 = none := by
    rw [readQuote, stripFront?_firstLine h]
    rfl
  rw [replyTo, hquote]

theorem instructions_of_not_prefix {body : Text} (h : ¬"<do>".toList <+: body) :
    instructions body = ([], body) := by
  rw [instructions, stripFront?_firstLine h]
  rfl

/-- The words do not begin like a line of the relay, with a closing tag hidden either. -/
theorem hideClosing_front {words : Text}
    (h : ¬"<reply-to".toList <+: words ∧ ¬"<do>".toList <+: words) :
    ¬"<reply-to".toList <+: hideClosing words ∧ ¬"<do>".toList <+: hideClosing words := by
  constructor
  · exact @not_prefix_replaceAll _ _ '<' "/aries-inbox>".toList "\\/aries-inbox>".toList
      "reply-to".toList (by decide) (by decide) (by decide) words h.1
  · exact @not_prefix_replaceAll _ _ '<' "/aries-inbox>".toList "\\/aries-inbox>".toList
      "do>".toList (by decide) (by decide) (by decide) words h.2

theorem instructions_part {m : Message} {words : Text} (h : Writable m words) :
    instructions (instructionsPart m ++ hideClosing words) =
      (m.instructions, hideClosing words) := by
  rw [instructionsPart]
  split
  · next hnone =>
    rw [List.nil_append, instructions_of_not_prefix (hideClosing_front h.front).2, hnone]
  · rw [List.append_assoc, List.singleton_append, instructions,
      firstLine_append (newline_notMem_instructionsLine h.told), stripInstructions]
    simp only [unescapeBody_hideClosing h.unescaped.2.1]

theorem replyTo_part {m : Message} {words : Text} (h : Writable m words) :
    replyTo (quotePart m ++ (instructionsPart m ++ hideClosing words)) =
      (m.replyTo, instructionsPart m ++ hideClosing words) := by
  cases hquote : m.replyTo with
  | none =>
    have hfront : ¬"<reply-to".toList <+: instructionsPart m ++ hideClosing words := by
      rw [instructionsPart]
      split
      · exact (hideClosing_front h.front).1
      · unfold instructionsLine
        rw [List.append_assoc, List.append_assoc, List.append_assoc]
        exact not_prefix_append (by decide) (by decide)
    simp only [quotePart, hquote, Option.map_none, Option.getD_none, List.nil_append]
    exact replyTo_of_not_prefix hfront
  | some q =>
    obtain ⟨htext, hsender, hsentAt⟩ := h.quoted q hquote
    have hread := readQuote_quoteLine (h.unescaped.2.2 q hquote)
    simp only [quotePart, hquote, Option.map_some, Option.getD_some]
    rw [List.append_assoc, List.singleton_append, replyTo,
      firstLine_append (newline_notMem_quoteLine htext hsender hsentAt), hread]

/-! ## no closing tag but the last -/

theorem closing_eq : closing = '<' :: "/aries-inbox>".toList := rfl

/-- A newline keeps two texts apart. -/
theorem closing_newline {xs ys : Text} (hxs : ¬closing <:+: xs) (hys : ¬closing <:+: ys) :
    ¬closing <:+: xs ++ '\n' :: ys := by
  intro h
  rcases infix_append_cases h with hin | hin | ⟨front, back, heq, -, hback, -, hpre⟩
  · exact hxs hin
  · rw [List.infix_cons_iff] at hin
    rcases hin with hin | hin
    · rw [closing_eq, List.cons_prefix_cons] at hin
      exact absurd hin.1 (by decide)
    · exact hys hin
  · obtain ⟨c, cs, rfl⟩ := List.exists_cons_of_ne_nil hback
    have hnew : '\n' ∈ closing := by
      rw [heq]
      simp [(List.cons_prefix_cons.mp hpre).1]
    exact absurd hnew (by decide)

theorem closing_hideClosing (s : Text) : ¬closing <:+: hideClosing s :=
  @occurs_replaceAll _ _ '<' "/aries-inbox>".toList "\\/aries-inbox>".toList (by decide)
    (by decide) (by decide) (by decide) s

/-- A line of the relay: a tag, a text and the tag that closes it. -/
theorem closing_line {front back s : Text} (hfront : ¬closing <:+: front)
    (hend : front.getLast? = some '>') (hback : ¬closing <:+: back)
    (hstart : back.head? = some '<') : ¬closing <:+: front ++ (hideClosing s ++ back) := by
  have hrest : ¬closing <:+: hideClosing s ++ back := by
    intro h
    rcases infix_append_cases h with hin | hin | ⟨left, right, heq, hleft, hright, -, hpre⟩
    · exact closing_hideClosing s hin
    · exact hback hin
    · -- it would have a second bracket that opens
      obtain ⟨c, cs, rfl⟩ := List.exists_cons_of_ne_nil hright
      obtain ⟨more, rfl⟩ := hpre
      obtain rfl : c = '<' := by simpa using hstart
      have htail := congrArg List.tail heq
      rw [List.tail_append_of_ne_nil hleft] at htail
      have hmem : '<' ∈ closing.tail := by
        rw [htail]
        simp
      exact absurd hmem (by decide)
  intro h
  rcases infix_append_cases h with hin | hin | ⟨left, right, heq, hleft, hright, hsuf, -⟩
  · exact hfront hin
  · exact hrest hin
  · -- it would have a bracket that closes before its last
    have hlast : left.getLast? = some '>' := by
      obtain ⟨more, rfl⟩ := hsuf
      rwa [List.getLast?_append_of_ne_nil _ hleft] at hend
    have hdrop := congrArg List.dropLast heq
    rw [List.dropLast_append_of_ne_nil hright] at hdrop
    have hmem : '>' ∈ closing.dropLast := by
      rw [hdrop]
      exact List.mem_append_left _ (List.mem_of_getLast? hlast)
    exact absurd hmem (by decide)

theorem bracket_notMem_rawText (fs : List (Name × Option Text)) : '<' ∉ rawText (rawsOf fs) := by
  simp only [rawText, rawsOf, List.mem_flatMap, List.mem_filterMap, Option.map_eq_some_iff,
    not_exists, not_and]
  rintro r ⟨field, -, value, -, rfl⟩ hmem
  have hname : '<' ∉ field.1.text := fun hin => by
    have := List.all_eq_true.mp field.1.ok.2 _ hin
    contradiction
  have hvalue : '<' ∉ escape value := notMem_escape (by decide)
  simp only [Raw.text, Raw.of, List.mem_cons, List.mem_append] at hmem
  simp [hname, hvalue] at hmem

theorem closing_quoteLine (q : Quote) : ¬closing <:+: quoteLine q := by
  have hfront : ¬closing <:+:
      '<' :: ("reply-to".toList ++ rawText (rawsOf (quoteFields q)) ++ ['>']) := by
    rw [List.infix_cons_iff]
    rintro (hpre | hin)
    · rw [closing_eq, List.cons_prefix_cons, List.append_assoc] at hpre
      exact not_prefix_append (by decide) (by decide) hpre.2
    · have hnone : '<' ∉ "reply-to".toList ++ rawText (rawsOf (quoteFields q)) ++ ['>'] := by
        have hopen : '<' ∉ "reply-to".toList := by decide
        simp only [List.mem_append, not_or]
        exact ⟨⟨hopen, bracket_notMem_rawText _⟩, by decide⟩
      exact hnone (hin.subset List.mem_cons_self)
  have hend : ('<' :: ("reply-to".toList ++ rawText (rawsOf (quoteFields q)) ++ ['>'])).getLast? =
      some '>' := by
    rw [← List.cons_append, List.getLast?_concat]
  have hline := @closing_line _ "</reply-to>".toList q.text hfront hend (by decide) (by decide)
  unfold quoteLine
  rw [List.append_assoc]
  exact hline

theorem closing_instructionsLine (s : Text) : ¬closing <:+: instructionsLine s := by
  have hline := @closing_line "<do>".toList "</do>".toList s (by decide) (by decide) (by decide)
    (by decide)
  unfold instructionsLine
  rw [List.append_assoc]
  exact hline

/-- **The body ends where it was written to end.** -/
theorem closing_bodyOf (m : Message) (words : Text) : ¬closing <:+: bodyOf m words := by
  have hwords := closing_hideClosing words
  have hinstr : ¬closing <:+: instructionsPart m ++ hideClosing words := by
    rw [instructionsPart]
    split
    · exact hwords
    · rw [List.append_assoc, List.singleton_append]
      exact closing_newline (closing_instructionsLine _) hwords
  have hquote : ¬closing <:+: quotePart m ++ (instructionsPart m ++ hideClosing words) := by
    rw [quotePart]
    cases m.replyTo with
    | none => exact hinstr
    | some q =>
      simp only [Option.map_some, Option.getD_some]
      rw [List.append_assoc, List.singleton_append]
      exact closing_newline (closing_quoteLine q) hinstr
  exact closing_newline hquote (by decide)

/-! ## the round trip -/

theorem aboutItems_intercalate {items : List Text} (hne : items ≠ [])
    (h : ∀ item ∈ items, item ≠ [] ∧ ',' ∉ item ∧ Trimmed isWhitespace item) :
    aboutItems ([','].intercalate items) = items := by
  have hsplit := List.splitOn_intercalate ',' (fun item hitem => (h item hitem).2.1) hne
  have htrim : items.map (trimBy isWhitespace) = items := by
    rw [List.map_congr_left fun item hitem => trimBy_eq_self (h item hitem).2.2, List.map_id']
  have hkeep : items.filter (· ≠ []) = items := by
    rw [List.filter_eq_self]
    simpa using fun item hitem => (h item hitem).1
  rw [aboutItems, hsplit, htrim, hkeep]

theorem names_fields (m : Message) : ((fields m).map (·.1.text)).Nodup := by
  simp only [fields, List.map_cons, List.map_nil]
  decide

theorem getAttr_fields {m : Message} {i : Nat} {name : Name} {value : Option Text}
    (h : (fields m)[i]? = some (name, value)) :
    getAttr (attrsFrom 0 (rawsOf (fields m))) name.text = value :=
  getAttr_rawsOf (names_fields m) 0 (List.mem_of_getElem? h)

/-- **What the relay says is read back.** -/
theorem readMessage_written {m : Message} {words : Text} (h : Writable m words) :
    readMessage (attrsFrom 0 (rawsOf (fields m))) (bodyOf m words) = some (words, m) := by
  have hget : ∀ {i : Nat} {name : Name} {value : Option Text}, (fields m)[i]? = some (name, value) →
      getAttr (attrsFrom 0 (rawsOf (fields m))) name.text = value := getAttr_fields
  generalize attrsFrom 0 (rawsOf (fields m)) = attrs at hget ⊢
  have hsender : getAttr attrs "from".toList = some m.sender := @hget 1 senderName _ rfl
  have hvia : getAttr attrs "via".toList = m.via := @hget 2 viaName _ rfl
  have hkind : getAttr attrs "kind".toList = m.kind := @hget 3 kindName _ rfl
  have hsentAt : getAttr attrs "at".toList = m.sentAt := @hget 4 sentAtName _ rfl
  have hid : getAttr attrs "id".toList = some m.id := @hget 5 idName _ rfl
  have habout : getAttr attrs "about".toList =
      if m.about = [] then none else some ([','].intercalate m.about) := @hget 6 aboutName _ rfl
  have hto : getAttr attrs "to".toList = m.addressee := @hget 7 addresseeName _ rfl
  have htask : getAttr attrs "task".toList = m.task := @hget 8 taskName _ rfl
  have hguess : getAttr attrs "guess".toList = m.guess := @hget 9 guessName _ rfl
  have hbody : stripBack? ['\n'] (bodyOf m words) =
      some (quotePart m ++ (instructionsPart m ++ hideClosing words)) :=
    stripBack?_eq_some.mpr rfl
  have hfront : ¬("<reply-to".toList.isPrefixOf (hideClosing words) = true ∨
      "<do>".toList.isPrefixOf (hideClosing words) = true) := by
    rw [List.isPrefixOf_iff_prefix, List.isPrefixOf_iff_prefix, not_or]
    exact hideClosing_front h.front
  have hitems : ((if m.about = [] then none else some ([','].intercalate m.about)).map
      aboutItems).getD [] = m.about := by
    split
    · next hnone => simp [hnone]
    · next hne => simp [aboutItems_intercalate hne h.about]
  simp only [readMessage, hbody, Option.getD_some, replyTo_part h, instructions_part h,
    if_neg hfront, hsender, hvia, hkind, hsentAt, hid, habout, hto, htask, hguess, hitems,
    unescapeBody_hideClosing h.unescaped.1]
  simp [Option.filter_some, h.sender, h.id]

section Hmac

variable (hmac : List UInt8 → Text → Vector UInt8 32)

theorem sigRaw_text (key : List UInt8) (signed : Text) :
    (sigRaw hmac key signed).text = " sig=\"".toList ++ signature hmac key signed ++ ['"'] :=
  rfl

/-- The signature is the last attribute. -/
theorem write_eq (key : List UInt8) (m : Message) (words : Text) :
    write hmac key m words = opening ++ (rawText (rawsOf (fields m) ++
      [sigRaw hmac key (signedText (headOf m) (bodyOf m words))]) ++
        '>' :: '\n' :: (bodyOf m words ++ closing)) := by
  have hlast : ∀ (rs : List Raw) (r : Raw), rawText (rs ++ [r]) = rawText rs ++ r.text := by
    simp [rawText]
  rw [hlast, sigRaw_text]
  unfold write headOf
  simp only [List.append_assoc, List.cons_append, List.nil_append]

theorem parse_write (key : List UInt8) {m : Message} {words : Text} (h : Writable m words) :
    parse (write hmac key m words) = some {
      signed := signedText (headOf m) (bodyOf m words)
      sig := signature hmac key (signedText (headOf m) (bodyOf m words))
      words := words
      inbox := m } := by
  rw [write_eq]
  generalize hsigned : signedText (headOf m) (bodyOf m words) = signed
  have hdistinct : Distinct [] (rawsOf (fields m) ++ [sigRaw hmac key signed]) := by
    have hnames : ((fields m).map (·.1.text) ++ ["sig".toList]).Nodup := by
      simp only [fields, List.map_cons, List.map_nil]
      decide
    rw [Distinct, List.nil_append, List.map_append]
    exact hnames.sublist ((names_rawsOf (fields m)).append_right _)
  have hversion : getAttr (attrsFrom 0 (rawsOf (fields m)) ++
      [⟨"sig".toList, signature hmac key signed, 0 + (rawText (rawsOf (fields m))).length⟩])
      "v".toList = some ['1'] := by
    have hne : "sig".toList ≠ "v".toList := by decide
    rw [getAttr_append_of_ne hne]
    exact @getAttr_rawsOf _ (names_fields m) 0 versionName _ List.mem_cons_self
  have hread := readMessage_written h
  have hcut : splitAt? closing (bodyOf m words ++ closing) = some (bodyOf m words, []) := by
    have hfree : occurs closing (bodyOf m words) = false := by
      rw [← Bool.not_eq_true, occurs_iff]
      exact closing_bodyOf m words
    have hcut := @splitAt?_append _ _ '<' "/aries-inbox>".toList (by decide) _ hfree []
    rwa [List.append_nil] at hcut
  have htag := attributesFrom_rawText [] 0 _ ('\n' :: (bodyOf m words ++ closing)) hdistinct
  rw [attrsFrom_append, List.nil_append] at htag
  have hvalue : unescape (sigRaw hmac key signed).value = signature hmac key signed :=
    unescape_signature hmac key signed
  have hname : (sigRaw hmac key signed).name = "sig".toList := rfl
  rw [hvalue, hname] at htag
  have hhead : rawText (rawsOf (fields m) ++ [sigRaw hmac key signed]) =
      rawText (rawsOf (fields m)) ++ (sigRaw hmac key signed).text := by
    simp [rawText]
  generalize hrs : rawsOf (fields m) ++ [sigRaw hmac key signed] = rs at htag hhead ⊢
  generalize hrest : bodyOf m words ++ closing = rest at htag hcut ⊢
  have hopen : stripFront? opening (opening ++ (rawText rs ++ '>' :: '\n' :: rest)) =
      some (rawText rs ++ '>' :: '\n' :: rest) :=
    stripFront?_eq_some.mpr rfl
  have hafter : stripFront? ['\n'] ((opening ++ (rawText rs ++ '>' :: '\n' :: rest)).drop
      (opening.length + (0 + (rawText rs).length + 1))) = some rest := by
    have hsplit : opening ++ (rawText rs ++ '>' :: '\n' :: rest) =
        (opening ++ (rawText rs ++ ['>'])) ++ '\n' :: rest := by
      simp
    rw [hsplit, List.drop_left' (by simp), stripFront?_eq_some]
    rfl
  have htake : (opening ++ (rawText rs ++ '>' :: '\n' :: rest)).take
      (opening.length + (0 + (rawText (rawsOf (fields m))).length)) = headOf m := by
    have hsplit : opening ++ (rawText rs ++ '>' :: '\n' :: rest) =
        headOf m ++ ((sigRaw hmac key signed).text ++ '>' :: '\n' :: rest) := by
      rw [hhead, headOf]
      simp only [List.append_assoc]
    rw [hsplit, List.take_left' (by simp [headOf])]
  have hblank : trimBy isWhitespace ([] : Text) = [] := rfl
  have hmessage : readMessage (attrsFrom 0 (rawsOf (fields m)) ++
      [⟨"sig".toList, signature hmac key signed, 0 + (rawText (rawsOf (fields m))).length⟩])
      (bodyOf m words) = some (words, m) := by
    rw [readMessage_append rfl, hread]
  simp only [parse, hopen, Option.bind_eq_bind, Option.bind_some, attributes, htag,
    List.getLast?_concat, hafter, hcut, hblank, hversion, hmessage, htake, hsigned, guard,
    signature_length, signature_isHex, and_self, if_true, Option.pure_def]

/-- **A written message is accepted and read back.** -/
theorem verified_write (key : InboxKey) {m : Message} {words : Text} (h : Writable m words) :
    verified hmac (some key) (write hmac key.key m words) = some {
      words := (pictures words (join key.dir "uploads".toList)).1
      inbox := m
      images := (pictures words (join key.dir "uploads".toList)).2 } := by
  have helement := elementOf_of_opening (write_eq hmac key.key m words)
  have hoccurs : occurs opening (write hmac key.key m words) = true := by
    rw [occurs_iff, write_eq]
    exact (List.prefix_append _ _).isInfix
  simp only [verified, hoccurs, helement, parse_write hmac key.key h, sigMatches_signature, guard,
    if_true, Option.bind_eq_bind, Option.bind_some, Option.pure_def]

end Hmac

/-- Words without a saved picture, and without white space at the end, stay as they are. -/
theorem pictures_eq_self {words uploads : Text}
    (hlines : ∀ line ∈ words.splitOn '\n', savedPicture uploads line = none)
    (hend : ∀ c ∈ words.getLast?, isWhitespace c = false) :
    pictures words uploads = (words, []) := by
  have hkept : (words.splitOn '\n').filter (fun line => (savedPicture uploads line).isNone) =
      words.splitOn '\n' := by
    rw [List.filter_eq_self]
    simpa using hlines
  have hnone : (words.splitOn '\n').filterMap (savedPicture uploads) = [] := by
    rw [List.filterMap_eq_nil_iff]
    exact hlines
  have htrim := @trimEndBy_append _ isWhitespace words [] hend (by simp)
  rw [List.append_nil] at htrim
  simp only [pictures, hkept, hnone, List.intercalate_splitOn, htrim, List.map_nil]

/-! ## what is shown is what was signed -/

theorem blank_of_trimBy {s : Text} (h : trimBy isWhitespace s = []) :
    s.all isWhitespace = true := by
  obtain ⟨before, after, heq, -, hbefore, hafter⟩ := @eq_trimBy _ isWhitespace s
  rw [heq, h, List.append_nil, List.all_eq_true]
  intro c hc
  rcases List.mem_append.mp hc with hc | hc
  · exact hbefore c hc
  · exact hafter c hc

/-- The element is the turn but for what may stand around it. -/
theorem element_of_verified {hmac : List UInt8 → Text → Vector UInt8 32}
    {source : Option InboxKey} {turn : Text} {v : Verified}
    (h : verified hmac source turn = some v) :
    ∃ element head sig body tail, Covers turn element ∧
      element = opening ++ head ++ " sig=\"".toList ++ sig ++ ['"', '>', '\n'] ++ body ++
        closing ++ tail ∧
      tail.all isWhitespace = true ∧
      signedOf turn = some (opening ++ head ++ ['>', '\n'] ++ body) ∧
      verified hmac source element = some v := by
  obtain ⟨element, p, helement, hp, hown⟩ := verified_element h
  obtain ⟨parts⟩ := parts_of_parse hp
  have htext := parts.text
  have hsig : parts.sig.text = " sig=\"".toList ++ parts.sig.value ++ ['"'] := by
    rw [Raw.text, parts.named]
    rfl
  have hsigned : signedOf turn = some p.signed := by
    simp [signedOf, helement, hp]
  refine ⟨element, rawText parts.attrs, parts.sig.value, parts.body, parts.tail,
    covers_of_elementOf helement, ?_, blank_of_trimBy parts.blank, ?_, hown⟩
  · rw [hsig] at htext
    simp only [List.append_assoc, List.cons_append, List.nil_append] at htext ⊢
    exact htext
  · rw [hsigned, parts.signed, signedText]
    simp only [List.append_assoc, List.cons_append, List.nil_append]

/-- **What is shown as the person's own message is what was signed.** Two turns with the same
signed text show the same. The element covers the turn but for the paste wrapper and the white
space around it, and shows by itself what the turn shows. A message that the format can carry
is accepted as it is written and signed, and read back: its words less the lines that name
saved pictures and the white space at the end. -/
theorem shown_is_signed (hmac : List UInt8 → Text → Vector UInt8 32) (key : InboxKey) :
    (∀ turn turn' v v', verified hmac (some key) turn = some v →
      verified hmac (some key) turn' = some v' → signedOf turn = signedOf turn' → v = v') ∧
    (∀ turn v, verified hmac (some key) turn = some v →
      ∃ element head sig body tail, Covers turn element ∧
        element = opening ++ head ++ " sig=\"".toList ++ sig ++ ['"', '>', '\n'] ++ body ++
          closing ++ tail ∧
        tail.all isWhitespace = true ∧
        signedOf turn = some (opening ++ head ++ ['>', '\n'] ++ body) ∧
        verified hmac (some key) element = some v) ∧
    ∀ m words, Writable m words →
      verified hmac (some key) (write hmac key.key m words) = some {
        words := (pictures words (join key.dir "uploads".toList)).1
        inbox := m
        images := (pictures words (join key.dir "uploads".toList)).2 } ∧
      ((∀ line ∈ words.splitOn '\n', savedPicture (join key.dir "uploads".toList) line = none) →
        (∀ c ∈ words.getLast?, isWhitespace c = false) →
        verified hmac (some key) (write hmac key.key m words) =
          some { words := words, inbox := m, images := [] }) := by
  constructor
  · intro turn turn' v v' hv hv' hsigned
    exact verified_eq_of_signed hv hv' hsigned
  constructor
  · intro turn v hv
    exact element_of_verified hv
  · intro m words h
    have hread := verified_write hmac key h
    constructor
    · exact hread
    · intro hlines hend
      rw [pictures_eq_self hlines hend] at hread
      exact hread

/-- A message about two items, which quotes another and tells the reader something. -/
def quoting : Message where
  sender := "pat".toList
  id := "7".toList
  via := none
  kind := none
  sentAt := none
  about := ["plan".toList, "tests".toList]
  addressee := none
  task := none
  guess := none
  replyTo := some ⟨some "lee".toList, none, "Is \"a\" ready?".toList⟩
  instructions := "Be <brief>.".toList

theorem quoting_writable : Writable quoting "Now & here".toList where
  sender := by decide
  id := by decide
  about item hitem := by
    obtain rfl | rfl : item = ['p', 'l', 'a', 'n'] ∨ item = ['t', 'e', 's', 't', 's'] := by
      simpa [quoting] using hitem
    all_goals
      refine ⟨by decide, by decide, fun c hc => ?_, fun c hc => ?_⟩
      · obtain rfl := Option.some.inj hc
        decide
      · obtain rfl := Option.some.inj hc
        decide
  quoted := by decide
  told := by decide
  front := by decide
  unescaped := by decide

/-- A sum of what is signed. -/
def checksum (key : List UInt8) (text : Text) : Vector UInt8 32 :=
  .replicate 32 (text.foldl (fun n c => n + UInt8.ofNat c.toNat) (key.foldl (· + ·) 0))

theorem shown_is_signed_quoting :
    verified checksum (some ⟨[1, 2], "/in".toList⟩)
        (write checksum [1, 2] quoting "Now & here".toList) =
      some ⟨"Now & here".toList, quoting, []⟩ := by
  apply ((shown_is_signed checksum ⟨[1, 2], "/in".toList⟩).2.2 quoting _ quoting_writable).2
  · have hlines : "Now & here".toList.splitOn '\n' = ["Now & here".toList] := by decide
    rw [hlines]
    intro line hline
    rw [List.mem_singleton.mp hline]
    rfl
  · intro c hc
    obtain rfl := Option.some.inj hc
    decide

/-- White space at the end of the words does not come back. -/
theorem trailing_blank_dropped :
    ∃ m words v, Writable m words ∧
      verified (fun _ _ => Vector.replicate 32 0) (some ⟨[], []⟩)
        (write (fun _ _ => Vector.replicate 32 0) [] m words) = some v ∧ v.words ≠ words := by
  let m : Message := ⟨['p'], ['1'], none, none, none, [], none, none, none, none, []⟩
  have h : Writable m ['h', 'i', ' '] := {
    sender := by decide
    id := by decide
    about := by simp [m]
    quoted := by simp [m]
    told := by decide
    front := by decide
    unescaped := ⟨by decide, by decide, by simp [m]⟩ }
  exact ⟨m, ['h', 'i', ' '], _, h, verified_write _ ⟨[], []⟩ h, by decide⟩

end ClaudeReplay.Claude.Inbox
