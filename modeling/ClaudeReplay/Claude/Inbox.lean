import ClaudeReplay.Lib.Replace
import ClaudeReplay.Lib.Trim
import ClaudeReplay.Text
import Mathlib.Data.Option.Basic

/-!
# ClaudeReplay.Claude.Inbox

A message the person sent through a relay: one signed element that is the whole of a turn.

`verified` cuts the turn up with small scanners: the paste wrapper, the opening tag's
attributes, the body up to the closing tag, and in the body a quote, instructions and words.
What is signed is the tag without its `sig`, and the body.

The scanner of attributes is exact: it accepts what is `rawText` of attributes with distinct
names, and nothing else (`attributesFrom_rawText`, `attributesFrom_eq_some`). So the signed text
alone says which attributes and which body there were (`signed_determines`), and whatever is
shown is read off these.

HMAC-SHA256 is a function from a key and a text to 32 bytes. Positions count characters.
-/

namespace ClaudeReplay.Claude.Inbox

open Lib

abbrev Text := List Char

/-! ## what is shown -/

structure Quote where
  sender : Option Text
  sentAt : Option Text
  text : Text

/-- What the relay wrote beside the words. -/
structure Message where
  sender : Text
  id : Text
  via : Option Text
  kind : Option Text
  sentAt : Option Text
  about : List Text
  addressee : Option Text
  task : Option Text
  guess : Option Text
  replyTo : Option Quote
  instructions : Text

structure Picture where
  name : Text
  path : Text

/-- What a verified turn shows. -/
structure Verified where
  words : Text
  inbox : Message
  images : List Picture

/-- This machine's inbox. -/
structure InboxKey where
  key : List UInt8
  dir : Text

/-! ## attributes -/

/-- An attribute, and where ` name="value"` begins. -/
structure Attr where
  name : Text
  value : Text
  start : Nat

def unescape (s : Text) : Text :=
  replaceAll "&amp;".toList ['&'] (replaceAll "&quot;".toList ['"']
    (replaceAll "&gt;".toList ['>'] (replaceAll "&lt;".toList ['<'] s)))

/-- A lowercase letter or a hyphen. -/
def isNameChar (c : Char) : Bool := ('a' ≤ c && c ≤ 'z') || c = '-'

theorem length_value_lt {rest name after value more : Text}
    (hname : splitAt? "=\"".toList rest = some (name, after))
    (hvalue : splitOnce '"' after = some (value, more)) : more.length < rest.length := by
  rw [splitAt?_eq_some hname, (splitOnce_eq_some hvalue).1]
  simp only [List.length_append, List.length_cons]
  omega

/-- The loop of `attributes`, from a position on. -/
def attributesFrom (out : List Attr) (pos : Nat) : Text → Option (List Attr × Nat)
  | '>' :: _ => some (out, pos + 1)
  | ' ' :: rest =>
    match _hname : splitAt? "=\"".toList rest with
    | none => none
    | some (name, after) =>
      if name = [] ∨ name.all isNameChar = false then none
      else
        match _hvalue : splitOnce '"' after with
        | none => none
        | some (value, more) =>
          if out.any (·.name = name) then none
          else
            attributesFrom (out ++ [⟨name, unescape value, pos⟩])
              (pos + (1 + name.length + 2 + value.length + 1)) more
  | _ => none
termination_by s => s.length
decreasing_by exact Nat.lt_succ_of_lt (length_value_lt (by assumption) (by assumption))

/-- `attributes`. -/
def attributes (s : Text) : Option (List Attr × Nat) := attributesFrom [] 0 s

def getAttr (attrs : List Attr) (name : Text) : Option Text :=
  (attrs.find? (·.name = name)).map (·.value)

/-! ## the body -/

def opening : Text := "<aries-inbox".toList

def closing : Text := "</aries-inbox>".toList

/-- The closing tag as words write it. -/
def hiddenClosing : Text := "<\\/aries-inbox>".toList

def unescapeBody (s : Text) : Text := replaceAll hiddenClosing closing s

def firstLine (body : Text) : Text × Text := (splitOnce '\n' body).getD (body, [])

/-- `str::get(from..)`. -/
def getFrom (s : Text) (pos : Nat) : Option Text :=
  if pos ≤ s.length then some (s.drop pos) else none

def readQuote (line : Text) : Option Quote := do
  let rest ← stripFront? "<reply-to".toList line
  let tag ← attributes rest
  let inner ← stripBack? "</reply-to>".toList rest
  let text ← getFrom inner tag.2
  return {
    sender := getAttr tag.1 "from".toList
    sentAt := getAttr tag.1 "at".toList
    text := unescapeBody text }

/-- `reply_to`. -/
def replyTo (body : Text) : Option Quote × Text :=
  match readQuote (firstLine body).1 with
  | some quote => (some quote, (firstLine body).2)
  | none => (none, body)

/-- `instructions`. -/
def instructions (body : Text) : Text × Text :=
  match (stripFront? "<do>".toList (firstLine body).1).bind (stripBack? "</do>".toList) with
  | some text => (unescapeBody text, (firstLine body).2)
  | none => ([], body)

/-- The items of an `about`. -/
def aboutItems (about : Text) : List Text :=
  ((about.splitOn ',').map (trimBy isWhitespace)).filter (· ≠ [])

/-- The last part of `parse`: what is read off the attributes and the body. -/
def readMessage (attrs : List Attr) (body : Text) : Option (Text × Message) :=
  let body := (stripBack? ['\n'] body).getD body
  let quote := replyTo body
  let instr := instructions quote.2
  let get := getAttr attrs
  if "<reply-to".toList.isPrefixOf instr.2 ∨ "<do>".toList.isPrefixOf instr.2 then none
  else do
    let sender ← (get "from".toList).filter (· ≠ [])
    let id ← (get "id".toList).filter (· ≠ [])
    return (unescapeBody instr.2, {
      sender := sender
      id := id
      via := get "via".toList
      kind := get "kind".toList
      sentAt := get "at".toList
      about := ((get "about".toList).map aboutItems).getD []
      addressee := get "to".toList
      task := get "task".toList
      guess := get "guess".toList
      replyTo := quote.1
      instructions := instr.1 })

/-! ## the element -/

/-- An element taken apart. -/
structure Parsed where
  signed : Text
  sig : Text
  words : Text
  inbox : Message

/-- A digit or one of `a` to `f`. -/
def isHex (c : Char) : Bool := c.isDigit || ('a' ≤ c && c ≤ 'f')

/-- `signed_text`. -/
def signedText (headWithoutSig body : Text) : Text := headWithoutSig ++ '>' :: '\n' :: body

/-- `parse`. -/
def parse (element : Text) : Option Parsed := do
  let tag ← (stripFront? opening element).bind attributes
  let sig ← tag.1.getLast?
  guard (sig.name = "sig".toList ∧ sig.value.length = 32 ∧ sig.value.all isHex = true)
  guard (getAttr tag.1 "v".toList = some ['1'])
  let after ← stripFront? ['\n'] (element.drop (opening.length + tag.2))
  let cut ← splitAt? closing after
  guard (trimBy isWhitespace cut.2 = [])
  let message ← readMessage tag.1 cut.1
  return {
    signed := signedText (element.take (opening.length + sig.start)) cut.1
    sig := sig.value
    words := message.1
    inbox := message.2 }

def pasteOpen : Text := "<pasted_content id=\"".toList

/-- `element_of`. -/
def elementOf (turn : Text) : Option Text :=
  match stripFront? pasteOpen (trimBy isWhitespace turn) with
  | none => some turn
  | some rest =>
    (splitAt? "\">\n".toList rest).bind fun cut =>
      if '"' ∈ cut.1 then none
      else stripBack? ("\n</pasted_content id=\"".toList ++ cut.1 ++ "\">".toList) cut.2

/-! ## pictures -/

inductive Component
  | rootDir
  | curDir
  | parentDir
  | normal (name : Text)
  deriving DecidableEq

def component (part : Text) : Option Component :=
  if part = [] ∨ part = ['.'] then none
  else if part = ['.', '.'] then some .parentDir
  else some (.normal part)

/-- `Path::components`. -/
def components (path : Text) : List Component :=
  let parts := path.splitOn '/'
  (if path.head? = some '/' then [.rootDir]
    else if parts.head? = some ['.'] then [.curDir] else []) ++ parts.filterMap component

/-- `Path::join` with a name. -/
def join (dir name : Text) : Text :=
  if dir = [] ∨ dir.getLast? = some '/' then dir ++ name else dir ++ '/' :: name

def Component.isNormal : Component → Bool
  | .normal _ => true
  | _ => false

/-- A file under `uploads`, by a plain path. -/
def isUpload (uploads path : Text) : Bool :=
  match stripFront? (components uploads) (components path) with
  | some rel => rel ≠ [] && rel.all Component.isNormal
  | none => false

def savedPicture (uploads line : Text) : Option Text :=
  ((stripFront? "[pasted image: ".toList line).bind (stripBack? [']'])).filter (isUpload uploads)

def pictureOf (path : Text) : Picture where
  name := (path.splitOn '/').getLast?.getD path
  path := path

/-- `pictures`. -/
def pictures (words uploads : Text) : Text × List Picture :=
  let lines := words.splitOn '\n'
  (trimEndBy isWhitespace
      (['\n'].intercalate (lines.filter fun line => (savedPicture uploads line).isNone)),
    (lines.filterMap (savedPicture uploads)).map pictureOf)

/-! ## the signature -/

def hexDigits (b : UInt8) : Text := [Nat.digitChar (b.toNat / 16), Nat.digitChar (b.toNat % 16)]

/-- `to_hex`. -/
def toHex (bytes : List UInt8) : Text := bytes.flatMap hexDigits

section Hmac

variable (hmac : List UInt8 → Text → Vector UInt8 32)

/-- What a signature has to be. -/
def signature (key : List UInt8) (signed : Text) : Text := (toHex (hmac key signed).toList).take 32

/-- `sig_matches`: compared without stopping early. -/
def sigMatches (key : List UInt8) (signed sig : Text) : Bool :=
  let want := signature hmac key signed
  sig.length == want.length &&
    (sig.zip want).foldl (fun d ab => d ||| (ab.1.toNat ^^^ ab.2.toNat)) 0 == 0

/-- `verified`. -/
def verified (source : Option InboxKey) (turn : Text) : Option Verified := do
  guard (occurs opening turn = true)
  let parsed ← (elementOf turn).bind parse
  let key ← source
  guard (sigMatches hmac key.key parsed.signed parsed.sig = true)
  let shown := pictures parsed.words (join key.dir "uploads".toList)
  return { words := shown.1, inbox := parsed.inbox, images := shown.2 }

end Hmac

/-- The text of a turn that is signed. -/
def signedOf (turn : Text) : Option Text := ((elementOf turn).bind parse).map (·.signed)

/-! ## the scanner is exact -/

/-- An attribute as it is written. -/
structure Raw where
  name : Text
  value : Text
  nameOk : name ≠ [] ∧ name.all isNameChar = true
  noQuote : '"' ∉ value

def Raw.text (r : Raw) : Text := ' ' :: r.name ++ '=' :: '"' :: r.value ++ ['"']

def rawText (rs : List Raw) : Text := rs.flatMap Raw.text

/-- The attributes that are read, when the first begins at a position. -/
def attrsFrom (pos : Nat) : List Raw → List Attr
  | [] => []
  | r :: rs => ⟨r.name, unescape r.value, pos⟩ :: attrsFrom (pos + r.text.length) rs

/-- No name is given twice. -/
def Distinct (names : List Text) (rs : List Raw) : Prop := (names ++ rs.map Raw.name).Nodup

theorem isNameChar_ne {c : Char} (h : isNameChar c = true) : c ≠ '=' := by
  rintro rfl
  contradiction

theorem Raw.cut_name (r : Raw) (rest : Text) :
    splitAt? "=\"".toList (r.name ++ '=' :: '"' :: rest) = some (r.name, rest) := by
  have hnone : '=' ∉ r.name := fun hmem =>
    isNameChar_ne (List.all_eq_true.mp r.nameOk.2 _ hmem) rfl
  have hcut := @splitAt?_append _ _ '=' ['"'] (by decide) _ (occurs_of_notMem hnone) rest
  simpa using hcut

theorem Raw.cut_value (r : Raw) (rest : Text) :
    splitOnce '"' (r.value ++ '"' :: rest) = some (r.value, rest) :=
  splitOnce_append r.noQuote rest

theorem Raw.length_text (r : Raw) :
    r.text.length = 1 + r.name.length + 2 + r.value.length + 1 := by
  simp [Raw.text]
  omega

/-- One attribute is read. -/
theorem attributesFrom_raw (out : List Attr) (pos : Nat) (r : Raw) (rest : Text)
    (hnew : r.name ∉ out.map Attr.name) :
    attributesFrom out pos (r.text ++ rest) =
      attributesFrom (out ++ [⟨r.name, unescape r.value, pos⟩]) (pos + r.text.length) rest := by
  have hany : out.any (·.name = r.name) = false := by
    simpa using hnew
  have htext : r.text ++ rest = ' ' :: (r.name ++ '=' :: '"' :: (r.value ++ '"' :: rest)) := by
    simp [Raw.text]
  have hname : ¬(r.name = [] ∨ r.name.all isNameChar = false) := by
    simp [r.nameOk]
  rw [htext, attributesFrom, r.length_text]
  split
  · next hcut =>
    rw [r.cut_name] at hcut
    contradiction
  · next name after hcut =>
    rw [r.cut_name] at hcut
    cases hcut
    rw [if_neg hname]
    split
    · next hcut =>
      rw [r.cut_value] at hcut
      contradiction
    · next value more hcut =>
      rw [r.cut_value] at hcut
      cases hcut
      simp [hany]

@[simp] theorem rawText_cons (r : Raw) (rs : List Raw) : rawText (r :: rs) = r.text ++ rawText rs :=
  rfl

@[simp] theorem attrsFrom_cons (pos : Nat) (r : Raw) (rs : List Raw) :
    attrsFrom pos (r :: rs) =
      ⟨r.name, unescape r.value, pos⟩ :: attrsFrom (pos + r.text.length) rs :=
  rfl

/-- **What is written is read.** -/
theorem attributesFrom_rawText (out : List Attr) (pos : Nat) (rs : List Raw) (rest : Text)
    (hnames : Distinct (out.map Attr.name) rs) :
    attributesFrom out pos (rawText rs ++ '>' :: rest) =
      some (out ++ attrsFrom pos rs, pos + (rawText rs).length + 1) := by
  induction rs generalizing out pos with
  | nil => simp [rawText, attrsFrom, attributesFrom]
  | cons r rs ih =>
    have hnew : r.name ∉ out.map Attr.name := by
      simp only [Distinct, List.map_cons] at hnames
      exact fun hmem => (List.nodup_append.mp hnames).2.2 _ hmem _ List.mem_cons_self rfl
    have hrest :
        Distinct ((out ++ [(⟨r.name, unescape r.value, pos⟩ : Attr)]).map Attr.name) rs := by
      simpa [Distinct] using hnames
    rw [rawText_cons, List.append_assoc, attributesFrom_raw out pos r _ hnew, ih _ _ hrest]
    simp [Nat.add_assoc]

/-- **What is read was written.** -/
theorem attributesFrom_eq_some {out attrs : List Attr} {pos len : Nat} {s : Text}
    (h : attributesFrom out pos s = some (attrs, len)) :
    ∃ rs rest, s = rawText rs ++ '>' :: rest ∧
      ((out.map Attr.name).Nodup → Distinct (out.map Attr.name) rs) ∧
      attrs = out ++ attrsFrom pos rs ∧ len = pos + (rawText rs).length + 1 := by
  fun_induction attributesFrom out pos s with
  | case1 out pos rest =>
    cases h
    exact ⟨[], rest, rfl, by simp [Distinct], by simp [attrsFrom], by simp [rawText]⟩
  | case6 out pos rest name after hname hok value more hvalue hnew ih =>
    have hrest := splitAt?_eq_some hname
    obtain ⟨hafter, hnoQuote⟩ := splitOnce_eq_some hvalue
    obtain ⟨rs, tail, hmore, hdistinct, hattrs, hlen⟩ := ih h
    have hnameOk : name ≠ [] ∧ name.all isNameChar = true := by
      simpa using hok
    let r : Raw := ⟨name, value, hnameOk, hnoQuote⟩
    have hlenr : r.text.length = 1 + name.length + 2 + value.length + 1 := r.length_text
    refine ⟨r :: rs, tail, ?_, ?_, ?_, ?_⟩
    · rw [hrest, hafter, hmore]
      simp [Raw.text, r]
    · intro hnodup
      have hall := hdistinct (by
        rw [List.map_append, List.nodup_append]
        simpa [hnodup] using hnew)
      simpa [Distinct, r] using hall
    · rw [hattrs]
      simp [r, hlenr]
    · rw [hlen, rawText_cons, List.length_append, hlenr]
      omega
  | _ => simp at h

theorem attrsFrom_append (pos : Nat) (rs : List Raw) (r : Raw) :
    attrsFrom pos (rs ++ [r]) =
      attrsFrom pos rs ++ [⟨r.name, unescape r.value, pos + (rawText rs).length⟩] := by
  induction rs generalizing pos with
  | nil => simp [attrsFrom, rawText]
  | cons s rs ih => simp [ih, Nat.add_assoc]

/-! ## what is shown is signed -/

theorem getAttr_append_of_ne {attrs : List Attr} {sig : Attr} {name : Text} (h : sig.name ≠ name) :
    getAttr (attrs ++ [sig]) name = getAttr attrs name := by
  simp [getAttr, List.find?_append, h]

/-- The signature itself is not shown. -/
theorem readMessage_append {attrs : List Attr} {sig : Attr} (h : sig.name = "sig".toList)
    (body : Text) : readMessage (attrs ++ [sig]) body = readMessage attrs body := by
  have hget : ∀ name ∈ ["from".toList, "id".toList, "via".toList, "kind".toList, "at".toList,
      "about".toList, "to".toList, "task".toList, "guess".toList],
      getAttr (attrs ++ [sig]) name = getAttr attrs name := by
    intro name hname
    apply getAttr_append_of_ne
    rw [h]
    rintro rfl
    revert hname
    decide
  simp only [List.forall_mem_cons] at hget
  obtain ⟨hfrom, hid, hvia, hkind, hat, habout, hto, htask, hguess, -⟩ := hget
  simp only [readMessage, hfrom, hid, hvia, hkind, hat, habout, hto, htask, hguess]

/-- How an element that is read is made up. -/
structure Parts (element : Text) (p : Parsed) where
  attrs : List Raw
  sig : Raw
  body : Text
  tail : Text
  distinct : Distinct [] attrs
  named : sig.name = "sig".toList
  text : element = opening ++ rawText attrs ++ sig.text ++ '>' :: '\n' :: body ++ closing ++ tail
  blank : trimBy isWhitespace tail = []
  signed : p.signed = signedText (opening ++ rawText attrs) body
  shown : readMessage (attrsFrom 0 attrs) body = some (p.words, p.inbox)

theorem parts_of_parse {element : Text} {p : Parsed} (h : parse element = some p) :
    Nonempty (Parts element p) := by
  simp only [parse, Option.bind_eq_bind, Option.bind_eq_some_iff, Option.guard_eq_some',
    Option.pure_def, Option.some.injEq] at h
  obtain ⟨tag, ⟨s, hopen, htag⟩, sig, hsig, -, ⟨hname, hlen, hhex⟩, -, hv, after, hafter, cut,
    hcut, -, hblank, message, hmessage, rfl⟩ := h
  obtain ⟨attrs, len⟩ := tag
  obtain ⟨rs, rest, hs, hdistinct, hattrs, hlenTag⟩ := attributesFrom_eq_some htag
  rw [List.nil_append] at hattrs
  obtain rfl | ⟨init, r, rfl⟩ := List.eq_nil_or_concat rs
  · simp [hattrs, attrsFrom] at hsig
  rw [List.concat_eq_append] at hs hdistinct hattrs hlenTag
  rw [attrsFrom_append] at hattrs
  have helement := stripFront?_eq_some.mp hopen
  have hinit : rawText (init ++ [r]) = rawText init ++ r.text := by
    simp [rawText]
  rw [hinit] at hs hlenTag
  simp only [hattrs, List.getLast?_concat, Option.some.injEq] at hsig
  have hrest : element.drop (opening.length + len) = rest := by
    have hsplit : element = (opening ++ (rawText init ++ r.text ++ ['>'])) ++ rest := by
      simp [helement, hs]
    rw [hsplit, List.drop_left' (by simp [hlenTag, Nat.add_assoc])]
  have hhead : element.take (opening.length + sig.start) = opening ++ rawText init := by
    have hsplit : element = (opening ++ rawText init) ++ (r.text ++ '>' :: rest) := by
      simp [helement, hs]
    rw [hsplit, List.take_left' (by simp [← hsig])]
  have hbody := splitAt?_eq_some hcut
  rw [hrest, stripFront?_eq_some] at hafter
  exact ⟨{
    attrs := init
    sig := r
    body := cut.1
    tail := cut.2
    distinct := by
      have hall := hdistinct (by simp)
      simp only [Distinct, List.map_append, List.map_nil, List.nil_append] at hall ⊢
      exact (List.nodup_append.mp hall).1
    named := by
      rw [← hname, ← hsig]
    text := by
      rw [helement, hs, hafter, hbody]
      simp
    blank := hblank
    signed := by rw [hhead]
    shown := by
      have hsigName : sig.name = "sig".toList := hname
      rw [hattrs, hsig, readMessage_append hsigName] at hmessage
      exact hmessage }⟩

/-- The attributes and the body can be told from the signed text. -/
theorem signed_determines {rs rs' : List Raw} {body body' : Text} (hrs : Distinct [] rs)
    (hrs' : Distinct [] rs')
    (h : signedText (opening ++ rawText rs) body = signedText (opening ++ rawText rs') body') :
    attrsFrom 0 rs = attrsFrom 0 rs' ∧ body = body' := by
  simp only [signedText, List.append_assoc, List.append_cancel_left_eq] at h
  have hread := attributesFrom_rawText [] 0 rs ('\n' :: body) hrs
  have hread' := attributesFrom_rawText [] 0 rs' ('\n' :: body') hrs'
  rw [h, hread'] at hread
  simp only [List.nil_append, Option.some.injEq, Prod.mk.injEq] at hread
  have hlen : (rawText rs).length = (rawText rs').length := by omega
  have hsplit := List.append_inj h hlen
  simp only [List.cons.injEq, true_and] at hsplit
  exact ⟨hread.1.symm, hsplit.2⟩

/-- **What is shown is signed.** Two elements with the same signed text show the same. -/
theorem parse_eq_of_signed_eq {element element' : Text} {p p' : Parsed}
    (hp : parse element = some p) (hp' : parse element' = some p')
    (hsigned : p.signed = p'.signed) : p.words = p'.words ∧ p.inbox = p'.inbox := by
  obtain ⟨parts⟩ := parts_of_parse hp
  obtain ⟨parts'⟩ := parts_of_parse hp'
  rw [parts.signed, parts'.signed] at hsigned
  obtain ⟨hattrs, hbody⟩ := signed_determines parts.distinct parts'.distinct hsigned
  have hshown := parts.shown
  rw [hattrs, hbody, parts'.shown] at hshown
  simp only [Option.some.injEq, Prod.mk.injEq] at hshown
  exact ⟨hshown.1.symm, hshown.2.symm⟩

/-! ## the element is the turn -/

/-- The element is the turn, but for the wrapper that the client puts around a paste. -/
def Covers (turn element : Text) : Prop :=
  turn = element ∨ ∃ id before after,
    turn = before ++ (pasteOpen ++ id ++ "\">\n".toList ++ element ++
      "\n</pasted_content id=\"".toList ++ id ++ "\">".toList) ++ after ∧
    before.all isWhitespace = true ∧ after.all isWhitespace = true

theorem covers_of_elementOf {turn element : Text} (h : elementOf turn = some element) :
    Covers turn element := by
  rw [elementOf] at h
  split at h
  · exact .inl (Option.some.inj h)
  · next rest hpaste =>
    obtain ⟨cut, hcut, hrest⟩ := Option.bind_eq_some_iff.mp h
    split at hrest
    · contradiction
    · obtain ⟨before, after, hturn, -, hbefore, hafter⟩ :=
        @eq_trimBy _ isWhitespace turn
      rw [stripFront?_eq_some.mp hpaste, splitAt?_eq_some hcut,
        stripBack?_eq_some.mp hrest] at hturn
      refine .inr ⟨cut.1, before, after, ?_, List.all_eq_true.mpr hbefore,
        List.all_eq_true.mpr hafter⟩
      rw [hturn]
      simp [-String.toList_append]

/-- An element is an element of its own. -/
theorem elementOf_of_opening {element more : Text} (h : element = opening ++ more) :
    elementOf element = some element := by
  have hbegins : opening <+: trimBy isWhitespace element := by
    have htrimmed : Trimmed isWhitespace opening := by
      have hfirst : opening.head? = some '<' := rfl
      have hlast : opening.getLast? = some 'x' := rfl
      constructor
      · rw [hfirst]
        rintro x ⟨⟩
        decide
      · rw [hlast]
        rintro x ⟨⟩
        decide
    rw [h]
    exact prefix_trimBy htrimmed more
  have hnone : stripFront? pasteOpen (trimBy isWhitespace element) = none := by
    obtain ⟨rest, hrest⟩ := hbegins
    rw [← hrest]
    rfl
  rw [elementOf, hnone]

section Hmac

variable {hmac : List UInt8 → Text → Vector UInt8 32} {source : Option InboxKey}

theorem verified_eq_some {turn : Text} {v : Verified} (h : verified hmac source turn = some v) :
    ∃ element p key, elementOf turn = some element ∧ parse element = some p ∧
      source = some key ∧ sigMatches hmac key.key p.signed p.sig = true ∧
      v.inbox = p.inbox ∧
      (v.words, v.images) = pictures p.words (join key.dir "uploads".toList) := by
  simp only [verified, Option.bind_eq_bind, Option.bind_eq_some_iff, Option.guard_eq_some',
    Option.pure_def, Option.some.injEq] at h
  obtain ⟨-, -, p, ⟨element, helement, hp⟩, key, hkey, -, hsig, rfl⟩ := h
  exact ⟨element, p, key, helement, hp, hkey, hsig, rfl, rfl⟩

/-- Turns with the same signed text show the same. -/
theorem verified_eq_of_signed {turn turn' : Text} {v v' : Verified}
    (hv : verified hmac source turn = some v) (hv' : verified hmac source turn' = some v')
    (hsigned : signedOf turn = signedOf turn') : v = v' := by
  obtain ⟨element, p, key, helement, hp, hkey, -, hinbox, hshown⟩ := verified_eq_some hv
  obtain ⟨element', p', key', helement', hp', hkey', -, hinbox', hshown'⟩ := verified_eq_some hv'
  obtain rfl : key = key' := Option.some.inj (hkey ▸ hkey')
  have hsame : p.signed = p'.signed := by
    simpa [signedOf, helement, hp, helement', hp'] using hsigned
  obtain ⟨hwords, hmessage⟩ := parse_eq_of_signed_eq hp hp' hsame
  rw [hwords, ← hshown', Prod.mk.injEq] at hshown
  obtain ⟨words, inbox, images⟩ := v
  obtain ⟨words', inbox', images'⟩ := v'
  simp only at hinbox hinbox' hshown
  simp only [Verified.mk.injEq]
  exact ⟨hshown.1, by rw [hinbox, hinbox', hmessage], hshown.2⟩

/-- What a turn shows, its element shows by itself. -/
theorem verified_element {turn : Text} {v : Verified} (h : verified hmac source turn = some v) :
    ∃ element p, elementOf turn = some element ∧ parse element = some p ∧
      verified hmac source element = some v := by
  obtain ⟨element, p, key, helement, hp, hkey, hsig, hinbox, hshown⟩ := verified_eq_some h
  obtain ⟨parts⟩ := parts_of_parse hp
  have htext := parts.text
  simp only [List.append_assoc] at htext
  have hown := elementOf_of_opening htext
  have hoccurs : occurs opening element = true := by
    rw [occurs_iff, htext]
    exact (List.prefix_append _ _).isInfix
  have hturn : occurs opening turn = true := by
    simp only [verified, Option.bind_eq_bind, Option.bind_eq_some_iff, Option.guard_eq_some'] at h
    obtain ⟨-, hturn, -⟩ := h
    exact hturn
  refine ⟨element, p, helement, hp, ?_⟩
  rw [← h]
  simp only [verified, hoccurs, hturn, hown, helement]

end Hmac

end ClaudeReplay.Claude.Inbox
